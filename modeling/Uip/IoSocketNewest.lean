import Uip.IoSocketInvariant

/-! Whether the demultiplexer keeps to the newest connection of an address. The read task writes
the map again after it waited for room, so it may put an older queue in the place of a newer
one; a run is free of this exactly if none of its insertions replaces a live newer entry. -/
namespace Uip.Io
open TransitionSystem

namespace Socket

variable {s : Socket} {e : Event}

/-- The newest connection of each address, while it lives, is the one in the map, and every
datagram of the address looked up since then went into its queue or is being sent to it. -/
def KeepsNewest (s : Socket) : Prop :=
  ∀ addr c, s.Newest addr c → (s.queues c).receiver = true →
    s.connections.lookup addr = some c ∧
    ∀ d ∈ s.received, d.source = addr → (s.queues c).since ≤ d.number →
      d ∈ (s.queues c).history ∨ ∃ b, s.readTask = .sending d c b

/-- An insertion of the read task replaces no entry but that of a dropped connection. -/
def insertsNewest (s : Socket) : Event → Prop
  | .insert remote q _ => ∀ c, s.connections.lookup remote = some c →
      c = q ∨ (s.queues c).receiver = false
  | _ => True

theorem keepsNewest_insert (h : s.WellFormed) {remote : SocketAddr} {q : ℕ} {b : Bool}
    (he : s.enabled (.insert remote q b)) (ht : (s.next (.insert remote q b)).KeepsNewest) :
    s.insertsNewest (.insert remote q b) := by
  intro c hc
  by_contra! hne
  have hnew := (h.overtaken remote q c (by rw [he]; rfl) hc).resolve_left hne.1
  have hrec : (s.queues c).receiver = true := by simpa using hne.2
  have hlook := (ht remote c ((newest_next (by simp)).mpr hnew) hrec).1
  rw [next_lookup] at hlook
  simp only [if_true, Option.some.injEq] at hlook
  exact hne.1 hlook.symm

/-- The map entry of the newest connection survives every step but a bad insertion. -/
theorem newest_lookup_next (hs : s.KeepsNewest) (hg : s.insertsNewest e) {addr : SocketAddr}
    {c : ℕ} (hc : s.Newest addr c) (hrec : (s.queues c).receiver = true)
    (he : e ≠ .connect addr) : (s.next e).connections.lookup addr = some c := by
  have hlook := (hs addr c hc hrec).1
  apply lookup_next hlook _ he
  rintro q b rfl
  rcases hg c hlook with heq | hdead
  · exact heq.symm
  · simp [hrec] at hdead

/-- The datagrams for the newest connection are in its queue, or on their way to it. -/
theorem newest_history_next (hen : s.enabled e) (hs : s.KeepsNewest) {addr : SocketAddr} {c : ℕ}
    (hc : s.Newest addr c) (hrec : (s.queues c).receiver = true) {d : Datagram}
    (hd : d ∈ (s.next e).received) (hsrc : d.source = addr)
    (hnum : (s.queues c).since ≤ d.number) :
    d ∈ ((s.next e).queues c).history ∨ ∃ b, (s.next e).readTask = .sending d c b := by
  obtain ⟨hlook, hall⟩ := hs addr c hc hrec
  have hlt := hc.1
  by_cases hold : d ∈ s.received
  · rcases hall d hold hsrc hnum with hh | ⟨b, hb⟩
    · exact .inl (s.history_next e hlt hh)
    · cases e with
      | send d' q b' =>
        obtain ⟨rfl, rfl, rfl⟩ := ReadTask.sending.inj (hb.symm.trans hen.1)
        exact .inl (by simp [next, updateQueue])
      | sendClosed d' q b' =>
        obtain ⟨rfl, rfl, rfl⟩ := ReadTask.sending.inj (hb.symm.trans hen.1)
        exact absurd hrec (by simp [hen.2])
      | datagram | insert | recvError => simp [enabled, hb] at hen
      | offer | offerClosed | closed => simp [enabled, hb] at hen
      | close | connect | take | read | drop | dropAcceptor => exact .inr ⟨b, hb⟩
  · rw [next_received] at hd
    cases e with
    | datagram bytes remote =>
      have hd' := (List.mem_append.mp hd).resolve_left hold
      obtain rfl := List.mem_singleton.mp hd'
      simp only at hsrc
      subst hsrc
      exact .inr ⟨false, by simp [next, lookup, hlook]⟩
    | _ => exact absurd hd hold

theorem KeepsNewest.next (h : s.WellFormed) (hs : s.KeepsNewest) (hen : s.enabled e)
    (hg : s.insertsNewest e) : (s.next e).KeepsNewest := by
  intro addr c hc hrec
  by_cases he : e = .connect addr
  · subst he
    obtain rfl := newest_of_connect hc
    refine ⟨by simp [next_lookup], fun d hd _ hnum => ?_⟩
    rw [(s.connect_fresh addr).2] at hnum
    exact absurd (h.numbered d hd) (Nat.not_lt.mpr hnum)
  · rw [newest_next he] at hc
    have hlt := hc.1
    have hrec' := s.receiver_of_next e hlt hrec
    refine ⟨newest_lookup_next hs hg hc hrec' he, fun d hd hsrc hnum => ?_⟩
    rw [s.next_since e hlt] at hnum
    exact newest_history_next hen hs hc hrec' hd hsrc hnum

theorem KeepsNewest.bind : Socket.bind.KeepsNewest := by
  intro addr c hc
  exact absurd hc.1 (Nat.not_lt_zero c)

end Socket

/-- A run keeps to the newest connections throughout if and only if, at each insertion of the
read task, the entry it replaces is its own or that of a dropped connection. -/
theorem keepsNewest_iff (r : Run machine) :
    (∀ x ∈ r.transitions, x.target.KeepsNewest) ↔
      ∀ x ∈ r.transitions, x.source.insertsNewest x.label := by
  apply r.guarded_iff (I := Socket.WellFormed)
  · exact fun s hs => hs ▸ ⟨.bind, .bind⟩
  · exact fun s e hs he => hs.next he
  · intro s e hs hkeeps he
    refine ⟨fun ht => ?_, hkeeps.next hs he⟩
    cases e with
    | insert remote q b => exact Socket.keepsNewest_insert hs he ht
    | _ => trivial

section Replaced

def remoteAddr : SocketAddr := .v6 ⟨1, 65041, 0, 0⟩

/-- A connection that is not read receives ten datagrams; the eleventh has to wait, and while
it waits the address is connected to again. -/
def replacingEvents : List Event :=
  .connect remoteAddr ::
    ((List.range 10).flatMap fun n => [.datagram [] remoteAddr,
      .send ⟨n, remoteAddr, []⟩ 0 false, .insert remoteAddr 0 false]) ++
    [.datagram [] remoteAddr, .connect remoteAddr, .read 0 ⟨0, remoteAddr, []⟩,
      .send ⟨10, remoteAddr, []⟩ 0 false, .insert remoteAddr 0 false]

theorem newest_replaced : ∃ s, Reachable machine s ∧ ¬ s.KeepsNewest := by
  obtain ⟨s, hs, hp⟩ := exec_reachable (M := machine) rfl replacingEvents
    (p := fun s => decide (s.connections.lookup remoteAddr = some 0 ∧ s.nextQueue = 2 ∧
      (s.queues 1).remote = remoteAddr ∧ (s.queues 1).origin = .connect ∧
      (s.queues 1).receiver = true)) (by decide +kernel)
  obtain ⟨hlook, hnext, hremote, horigin, hrec⟩ := of_decide_eq_true hp
  refine ⟨s, hs, fun hkeep => ?_⟩
  have hnew : s.Newest remoteAddr 1 := ⟨by omega, hremote, horigin, fun q _ _ => by omega⟩
  have := (hkeep remoteAddr 1 hnew hrec).1
  simp [hlook] at this

end Replaced

end Uip.Io
