import Uip.UnixServerInvariant

/-!
# Owners of local ports

A registered port ought to belong to a client that is still there, and frames sent from a port to
the client that gets its replies. A port that is bound again changes its owner, and no task removes
its port from the map when it ends.
-/
namespace Uip
open TransitionSystem Transport

namespace UnixServer

variable {s t : UnixServer} {e : UnixEvent} {k : ℕ}

def present (s : UnixServer) (k : ℕ) : Prop :=
  (s.streams k).client.connected = true ∧ (s.streams k).client.closed = false

instance (s : UnixServer) (k : ℕ) : Decidable (s.present k) :=
  inferInstanceAs (Decidable (_ ∧ _))

/-- The read task and the write task of the client have ended. -/
def tasksEnded (s : UnixServer) (k : ℕ) : Prop := ¬ s.reads k ∧ s.writeEnded k

instance (s : UnixServer) (k : ℕ) : Decidable (s.tasksEnded k) :=
  inferInstanceAs (Decidable (_ ∧ _))

/-- The map agrees with what the client has: its port is registered for it as long as it is
there, and as long as its read task may send from the port; and it is there, or a task of it runs,
as long as a port is registered for it. -/
structure Owns (s : UnixServer) (k : ℕ) : Prop where
  port : ∀ p, s.unix.bound k = some p → s.present k → s.unix.connections.lookup p = some k
  live : ∀ p, s.unix.connections.lookup p = some k → s.present k ∨ ¬ s.tasksEnded k
  sender : ∀ p, s.unix.clients k = .bound p true → s.unix.connections.lookup p = some k

/-- The tasks of the clients that have gone away have ended. -/
def Settled (s : UnixServer) : Prop := ∀ k, ¬ s.present k → s.tasksEnded k

/-- No client binds a port whose owner is there or may send from it, and the last task of a client
does not end while a port is registered for the client. -/
def PortsKept (s : UnixServer) : UnixEvent → Prop
  | .first _ (some (.frame (.bind p))) =>
    ∀ k, s.unix.connections.lookup p = some k → ¬ s.present k ∧ ¬ s.reads k
  | .read _ (some (.frame (.data ..))) => True
  | .read k _ => s.registered k → s.present k ∨ ¬ s.writeEnded k
  | .writeFailed k _ => s.registered k → s.reads k
  | _ => True

theorem registered_iff (h : s.unix.Valid) :
    s.registered k ↔ ∃ p, s.unix.connections.lookup p = some k :=
  ⟨fun ⟨p, _, hp⟩ => ⟨p, hp⟩, fun ⟨p, hp⟩ => ⟨p, h.registered p k hp, hp⟩⟩

/-- The write task of a client whose channel is registered goes on until the client goes away. -/
structure Valid (s : UnixServer) : Prop where
  unix : s.unix.Valid
  writing : ∀ k, s.registered k → s.writeEnded k → (s.streams k).client.closed = true
  absent : ∀ k, s.unix.nextClient ≤ k → s.writeEnded k

theorem Valid.new : UnixServer.new.Valid where
  unix := .new
  writing k := by simp [registered, UnixServer.new, UnixState.new]
  absent _ _ := rfl

theorem next_present (hconnect : ∀ j, e ≠ .connect j) (hclose : ∀ j, e ≠ .close j) :
    (s.next e).present k ↔ s.present k := by
  cases e with
  | connect j => exact absurd rfl (hconnect j)
  | close j => exact absurd rfl (hclose j)
  | write j item =>
    by_cases hk : k = j
    · subst hk
      simp [next, modify, present]
    · simp [next, modify, present, hk]
  | _ => rw [present, next_client _ _ _ (by simp [UnixEvent.client]), present]

theorem Valid.next (h : s.Valid) (he : s.enabled e) : (s.next e).Valid where
  unix := unix_next h.unix he
  writing k hk hw := by
    obtain ⟨p, hp⟩ := (registered_iff (unix_next h.unix he)).mp hk
    rcases (next_lookup h.unix he).mp hp with rfl | ⟨_, hold⟩
    · rw [next_writeEnded he] at hw
      exact absurd rfl (hw.1 rfl p)
    · have hr := (registered_iff h.unix).mpr ⟨p, hold⟩
      by_cases hc : s.writeEnded k
      · exact closed_next (h.writing k hr hc)
      · rw [next_writeEnded he] at hw
        cases e with
        | first j item => exact absurd hw.2 hc
        | writeFailed j frame =>
          obtain rfl := hw.resolve_right hc
          exact closed_next he.2
        | channelClosed j =>
          obtain rfl := hw.resolve_right hc
          exact absurd hr he.2.2.1
        | _ => exact absurd hw hc
  absent k hk := by
    have hold := h.absent k (Nat.le_trans (nextClient_le he) hk)
    rw [next_writeEnded he]
    cases e with
    | first j item =>
      refine ⟨?_, hold⟩
      rintro rfl
      have hlt := (h.unix.waiting k (by simp [UnixState.waiting, he.1])).2
      exact absurd (Nat.le_trans (nextClient_le he) hk) (Nat.not_le_of_lt hlt)
    | writeFailed | channelClosed => exact .inr hold
    | _ => exact hold

theorem portsKept_read {item : Option ReadItem}
    (hdata : ∀ hostId dstPort data, item ≠ some (.frame (.data hostId dstPort data))) :
    s.PortsKept (.read k item) ↔ (s.registered k → s.present k ∨ ¬ s.writeEnded k) := by
  match item with
  | some (.frame (.data hostId dstPort data)) => exact absurd rfl (hdata hostId dstPort data)
  | some (.frame (.bind _)) | some (.frame (.error _)) | some .error | none => exact Iff.rfl

/-- How the last task of a registered client ends. -/
theorem tasksEnded_next (h : s.Valid) (he : s.enabled e) (hr : s.registered k)
    (hended : (s.next e).tasksEnded k) : s.tasksEnded k ∨
      (∃ item, e = .read k item ∧ s.writeEnded k ∧
        ∀ hostId dstPort data, item ≠ some (.frame (.data hostId dstPort data))) ∨
      ∃ frame, e = .writeFailed k frame ∧ ¬ s.reads k := by
  obtain ⟨hreads, hw⟩ := hended
  rw [next_reads h.unix he] at hreads
  rw [next_writeEnded he] at hw
  push Not at hreads
  by_cases hbefore : s.writeEnded k
  · by_cases hreading : s.reads k
    · obtain ⟨item, hitem, hdata⟩ := hreads.2 hreading
      exact .inr (.inl ⟨item, hitem, hbefore, hdata⟩)
    · exact .inl ⟨hreading, hbefore⟩
  · cases e with
    | first j item => exact absurd hw.2 hbefore
    | writeFailed j frame =>
      obtain rfl := hw.resolve_right hbefore
      refine .inr (.inr ⟨frame, rfl, fun hreading => ?_⟩)
      obtain ⟨item, hitem, _⟩ := hreads.2 hreading
      cases hitem
    | channelClosed j =>
      obtain rfl := hw.resolve_right hbefore
      exact absurd hr he.2.2.1
    | _ => exact absurd hw hbefore

theorem present_next (h : s.present k) (hclose : e ≠ .close k) : (s.next e).present k := by
  cases e with
  | connect j =>
    by_cases hj : k = j
    · subst hj
      simpa [UnixServer.next, modify, present] using h.2
    · simpa [UnixServer.next, modify, present, hj] using h
  | close j =>
    have hj : k ≠ j := fun hj => hclose (hj ▸ rfl)
    simpa [UnixServer.next, modify, present, hj] using h
  | _ => exact (next_present (by simp) (by simp)).mpr h

/-- What a client owns it owns after a step too, if the step keeps the ports. -/
theorem Owns.next (h : s.Valid) (hs : s.Owns k) (he : s.enabled e) (kept : s.PortsKept e) :
    (s.next e).Owns k where
  port p hp hpresent := by
    rcases (next_bound h.unix he).mp hp with hbind | hbound
    · exact (next_lookup h.unix he).mpr (.inl hbind)
    · have hbefore : s.present k := by
        cases e with
        | connect j =>
          by_cases hj : k = j
          · subst hj
            have hnone := UnixState.bound_of_connected (h.unix.absent k he)
            simp [hnone] at hbound
          · simpa [UnixServer.next, modify, present, hj] using hpresent
        | close j =>
          by_cases hj : k = j
          · exact hj ▸ he
          · simpa [UnixServer.next, modify, present, hj] using hpresent
        | _ => exact (next_present (by simp) (by simp)).mp hpresent
      have hlookup := hs.port p hbound hbefore
      refine (next_lookup h.unix he).mpr (.inr ⟨?_, hlookup⟩)
      rintro j rfl
      exact (kept k hlookup).1 hbefore
  live p hp := by
    rcases (next_lookup h.unix he).mp hp with rfl | ⟨_, hlookup⟩
    · exact .inr fun hended => hended.1 ((next_reads h.unix he).mpr (.inl ⟨p, rfl⟩))
    · have hr := (registered_iff h.unix).mpr ⟨p, hlookup⟩
      by_cases hbefore : s.present k
      · by_cases hclose : e = .close k
        · subst hclose
          have hopen : (s.streams k).client.closed = false := he.2
          refine .inr fun hended => ?_
          have hclosed := h.writing k hr ((next_writeEnded he).mp hended.2)
          simp [hopen] at hclosed
        · exact .inl (present_next hbefore hclose)
      · refine .inr fun hended => ?_
        rcases tasksEnded_next h he hr hended with hold | ⟨item, rfl, hw, hdata⟩ | ⟨frame, rfl, hw⟩
        · exact ((hs.live p hlookup).resolve_left hbefore) hold
        · exact ((portsKept_read hdata).mp kept hr).elim hbefore (absurd hw)
        · exact hw (kept hr)
  sender p hp := by
    refine (next_lookup h.unix he).mpr ?_
    rcases (next_reading h.unix he).mp hp with hbind | ⟨hreading, _⟩
    · exact .inl hbind
    · have hlookup := hs.sender p hreading
      refine .inr ⟨?_, hlookup⟩
      rintro j rfl
      exact (kept k hlookup).2 (reads_iff.mpr ⟨p, hreading⟩)

theorem portsKept_of_bind {j : ℕ} {p : UInt16} (h : s.Valid) (he : s.enabled (.first j (binds p)))
    (hs : ∀ k, (s.next (.first j (binds p))).Owns k) : s.PortsKept (.first j (binds p)) := by
  intro k hlookup
  have hbound := h.unix.registered p k hlookup
  have hne : k ≠ j := by
    rintro rfl
    have hnone := UnixState.bound_of_connected
      (h.unix.waiting k (by simp [UnixState.waiting, he.1])).1
    simp [hnone] at hbound
  have hlost : (s.next (.first j (binds p))).unix.connections.lookup p ≠ some k := by
    rw [Ne, next_lookup h.unix he]
    simp [Ne.symm hne]
  constructor
  · intro hpresent
    refine hlost ((hs k).port p ?_ (present_next hpresent (by simp)))
    exact (next_bound h.unix he).mpr (.inr hbound)
  · intro hreads
    obtain ⟨q, hq⟩ := reads_iff.mp hreads
    obtain rfl : q = p := by
      rw [UnixState.bound_of_clients hq] at hbound
      exact Option.some.inj hbound
    exact hlost ((hs k).sender q ((next_reading h.unix he).mpr (.inr ⟨hq, by simp⟩)))

theorem portsKept_of_readEnd {j : ℕ} {item : Option ReadItem} (h : s.Valid)
    (he : s.enabled (.read j item)) (hs : ∀ k, (s.next (.read j item)).Owns k)
    (hdata : ∀ hostId dstPort data, item ≠ some (.frame (.data hostId dstPort data))) :
    s.PortsKept (.read j item) := by
  refine (portsKept_read hdata).mpr fun hr => ?_
  obtain ⟨p, hlookup⟩ := (registered_iff h.unix).mp hr
  have hlive := (hs j).live p ((next_lookup h.unix he).mpr (.inr ⟨by simp, hlookup⟩))
  rw [next_present (by simp) (by simp), tasksEnded, next_reads h.unix he,
    next_writeEnded he] at hlive
  refine hlive.imp_right fun hrun hw => hrun ⟨?_, hw⟩
  simpa using fun _ => hdata

theorem portsKept_of_writeFailed {j : ℕ} {frame : Unix.Frame} (h : s.Valid)
    (he : s.enabled (.writeFailed j frame)) (hs : ∀ k, (s.next (.writeFailed j frame)).Owns k) :
    s.PortsKept (.writeFailed j frame) := by
  intro hr
  obtain ⟨p, hlookup⟩ := (registered_iff h.unix).mp hr
  have hlive := (hs j).live p ((next_lookup h.unix he).mpr (.inr ⟨by simp, hlookup⟩))
  have hgone : ¬ (s.next (.writeFailed j frame)).present j := by
    rw [next_present (by simp) (by simp)]
    intro hpresent
    exact absurd he.2 (by simp [hpresent.2])
  by_contra hreads
  refine hlive.resolve_left hgone ⟨?_, (next_writeEnded he).mpr (.inl rfl)⟩
  rw [next_reads h.unix he]
  simpa using hreads

/-- A step that does not keep the ports takes one from a client, or leaves one to a client that is
gone. -/
theorem portsKept_of_owns (h : s.Valid) (he : s.enabled e) (hs : ∀ k, (s.next e).Owns k) :
    s.PortsKept e := by
  cases e with
  | first j item =>
    by_cases hb : ∃ p, item = binds p
    · obtain ⟨p, rfl⟩ := hb
      exact portsKept_of_bind h he hs
    · cases item with
      | none => trivial
      | some read =>
        cases read with
        | error => trivial
        | frame frame =>
          cases frame with
          | bind p => exact absurd ⟨p, rfl⟩ hb
          | data | error => trivial
  | read j item =>
    by_cases hdata : ∃ hostId dstPort data, item = some (.frame (.data hostId dstPort data))
    · obtain ⟨hostId, dstPort, data, rfl⟩ := hdata
      trivial
    · push Not at hdata
      exact portsKept_of_readEnd h he hs hdata
  | writeFailed j frame => exact portsKept_of_writeFailed h he hs
  | _ => trivial

theorem Valid.settled (h : s.Valid)
    (hsettled : ∀ k < s.unix.nextClient, ¬ s.present k → s.tasksEnded k) : s.Settled := by
  intro k hk
  by_cases hlt : k < s.unix.nextClient
  · exact hsettled k hlt hk
  · have hle := Nat.le_of_not_lt hlt
    refine ⟨fun hreads => ?_, h.absent k hle⟩
    obtain ⟨p, hp⟩ := reads_iff.mp hreads
    simp [h.unix.absent k hle] at hp

theorem Valid.of_reachable (h : Reachable unixMachine s) : s.Valid :=
  h.guarded_induct (by rintro s rfl; exact .new) fun _ _ hs he => hs.next he

/-- The map is the map from the ports of the clients that are there to these clients. -/
structure Exact (s : UnixServer) : Prop where
  lookup : ∀ p k, s.unix.connections.lookup p = some k ↔ s.unix.bound k = some p ∧ s.present k
  usedPorts : ∀ p ∈ s.unix.usedPorts, ∃ k, s.unix.bound k = some p ∧ s.present k

theorem exact_of_owns (h : s.Valid) (hs : ∀ k, s.Owns k) (settled : s.Settled) : s.Exact := by
  have hlookup : ∀ p k, s.unix.connections.lookup p = some k ↔
      s.unix.bound k = some p ∧ s.present k := by
    intro p k
    constructor
    · intro hp
      refine ⟨h.unix.registered p k hp, ?_⟩
      by_contra hgone
      exact ((hs k).live p hp).resolve_left hgone (settled k hgone)
    · rintro ⟨hp, hpresent⟩
      exact (hs k).port p hp hpresent
  refine ⟨hlookup, fun p hp => ?_⟩
  obtain ⟨k, hk⟩ := UnixState.mem_usedPorts.mp hp
  exact ⟨k, (hlookup p k).mp hk⟩

end UnixServer

/-- The ports keep their owners exactly where no client takes a port from another and no client's
last task ends while its port is registered; the map is then exact once all tasks of the clients
that have gone away have ended. -/
theorem ports_owned_iff (r : Run unixMachine) :
    ((∀ x ∈ r.transitions, ∀ k, x.target.Owns k) ↔
      ∀ x ∈ r.transitions, x.source.PortsKept x.label) ∧
    ((∀ x ∈ r.transitions, x.source.PortsKept x.label) →
      ∀ x ∈ r.transitions, x.target.Settled → x.target.Exact) := by
  have hiff : (∀ x ∈ r.transitions, ∀ k, x.target.Owns k) ↔
      ∀ x ∈ r.transitions, x.source.PortsKept x.label := by
    apply Run.guarded_iff (I := UnixServer.Valid) (P := fun s => ∀ k, s.Owns k)
    · rintro s rfl
      refine ⟨.new, fun k => ⟨?_, ?_, ?_⟩⟩ <;>
        simp [UnixServer.new, UnixState.new, UnixState.bound, Client.port]
    · exact fun _ _ h he => h.next he
    · exact fun _ _ h hs he =>
        ⟨fun howns => UnixServer.portsKept_of_owns h he howns, fun kept k => (hs k).next h he kept⟩
  refine ⟨hiff, fun kept x hx settled => ?_⟩
  have hvalid := UnixServer.Valid.of_reachable (r.reachable_of_mem hx).2
  exact UnixServer.exact_of_owns hvalid (hiff.mpr kept x hx) settled

def leaveEvents (k : ℕ) (tuple : Delivery) : List UnixEvent :=
  [.close k, .read k none, .enqueue tuple, .deliver tuple,
    .handed k (.data tuple.hostId tuple.srcPort tuple.data),
    .takeFrame k (.data tuple.hostId tuple.srcPort tuple.data),
    .writeFailed k (.data tuple.hostId tuple.srcPort tuple.data)]

/-- The port of a client that is gone stays registered for it after its tasks have ended, and a
client that is there loses its port to another that binds it, while its read task goes on. -/
theorem ports_lost :
    (∃ s, Reachable unixMachine s ∧ s.Settled ∧ ¬ s.present 0 ∧
      s.unix.connections.lookup 80 = some 0) ∧
    ∃ s, Reachable unixMachine s ∧ s.present 0 ∧ s.unix.clients 0 = .bound 80 true ∧
      s.unix.connections.lookup 80 = some 1 := by
  constructor
  · obtain ⟨s, hs, h⟩ := exec_reachable (M := unixMachine) rfl
      (bindEvents 0 80 ++ leaveEvents 0 ⟨digestOne, 1, 80, []⟩)
      (p := fun s => decide ((∀ k < s.unix.nextClient, ¬ s.present k → s.tasksEnded k) ∧
        ¬ s.present 0 ∧ s.unix.connections.lookup 80 = some 0)) (by decide)
    obtain ⟨hsettled, hgone, hlookup⟩ := of_decide_eq_true h
    exact ⟨s, hs, (UnixServer.Valid.of_reachable hs).settled hsettled, hgone, hlookup⟩
  · obtain ⟨s, hs, h⟩ := exec_reachable (M := unixMachine) rfl
      (bindEvents 0 80 ++ bindEvents 1 80)
      (p := fun s => decide (s.present 0 ∧ s.unix.clients 0 = .bound 80 true ∧
        s.unix.connections.lookup 80 = some 1)) (by decide)
    exact ⟨s, hs, of_decide_eq_true h⟩

end Uip
