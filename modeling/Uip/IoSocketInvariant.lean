import Uip.IoSocketStep

/-! The invariants of the demultiplexer. An entry of the map leads to a queue of its own address,
and what the read task is about to insert there differs from the entry only if `connect` made
a newer one meanwhile; each connection is alive on its way to the accept task. -/
namespace Uip.Io
open TransitionSystem

namespace Socket

variable {s : Socket} {e : Event}

/-- `c` is the connection that the last call of `connect(addr)` returned. -/
def Newest (s : Socket) (addr : SocketAddr) (c : ℕ) : Prop :=
  c < s.nextQueue ∧ (s.queues c).remote = addr ∧ (s.queues c).origin = .connect ∧
    ∀ q, c < q → q < s.nextQueue → (s.queues q).remote = addr → (s.queues q).origin = .datagram

theorem newest_connect (s : Socket) (addr : SocketAddr) :
    (s.next (.connect addr)).Newest addr s.nextQueue := by
  rcases s.next_fresh (.connect addr) with ⟨_, h⟩ | ⟨hn, ⟨_, _, h, _⟩ | ⟨a, ha, hq⟩⟩
  · exact absurd rfl (h addr)
  · cases h
  · obtain rfl := Event.connect.inj ha
    refine ⟨by omega, by rw [hq]; rfl, by rw [hq]; rfl, fun q h1 h2 => by omega⟩

theorem newest_of_connect {addr : SocketAddr} {c : ℕ}
    (h : (s.next (.connect addr)).Newest addr c) : c = s.nextQueue := by
  obtain ⟨hlt, hr, ho, _⟩ := s.newest_connect addr
  obtain ⟨hc, _, _, hlast⟩ := h
  by_contra hne
  have hn : (s.next (.connect addr)).nextQueue = s.nextQueue + 1 := rfl
  have := hlast s.nextQueue (by omega) hlt hr
  simp [ho] at this

theorem newest_next {addr : SocketAddr} {c : ℕ} (he : e ≠ .connect addr) :
    (s.next e).Newest addr c ↔ s.Newest addr c := by
  have hle := s.nextQueue_le e
  constructor
  · rintro ⟨hc, hr, ho, hlast⟩
    have hold : c < s.nextQueue := by
      rcases s.next_fresh e with ⟨hn, _⟩ | ⟨hn, ⟨_, _, rfl, _, hq⟩ | ⟨a, rfl, hq⟩⟩
      · omega
      · by_contra hne
        obtain rfl : c = s.nextQueue := by omega
        rw [hq] at ho
        cases ho
      · by_contra hne
        obtain rfl : c = s.nextQueue := by omega
        rw [hq] at hr
        exact he (hr ▸ rfl)
    rw [s.next_remote e hold] at hr
    rw [s.next_origin e hold] at ho
    refine ⟨hold, hr, ho, fun q h1 h2 hq => ?_⟩
    rw [← s.next_origin e h2]
    exact hlast q h1 (by omega) (by rw [s.next_remote e h2, hq])
  · rintro ⟨hc, hr, ho, hlast⟩
    refine ⟨by omega, by rw [s.next_remote e hc, hr], by rw [s.next_origin e hc, ho],
      fun q h1 h2 hq => ?_⟩
    by_cases hold : q < s.nextQueue
    · rw [s.next_remote e hold] at hq
      rw [s.next_origin e hold]
      exact hlast q h1 hold hq
    · rcases s.next_fresh e with ⟨hn, _⟩ | ⟨hn, ⟨_, _, rfl, _, hnew⟩ | ⟨a, rfl, hnew⟩⟩
      · omega
      · obtain rfl : q = s.nextQueue := by omega
        rw [hnew]
        rfl
      · obtain rfl : q = s.nextQueue := by omega
        rw [hnew] at hq
        exact absurd (hq ▸ rfl) he

/-- The invariant of the map, of the read task and of the received datagrams. -/
structure WellFormed (s : Socket) : Prop where
  entry : ∀ addr q, s.connections.lookup addr = some q →
    q < s.nextQueue ∧ (s.queues q).remote = addr
  target : ∀ addr q, s.readTask.target = some (addr, q) →
    q < s.nextQueue ∧ (s.queues q).remote = addr
  overtaken : ∀ addr q c, s.readTask.target = some (addr, q) →
    s.connections.lookup addr = some c → c = q ∨ s.Newest addr c
  numbered : ∀ d ∈ s.received, d.number < s.received.length

theorem WellFormed.bind : Socket.bind.WellFormed where
  entry := by simp [Socket.bind, AList.lookup_empty]
  target := by simp [Socket.bind, ReadTask.target]
  overtaken := by simp [Socket.bind, ReadTask.target]
  numbered := by simp [Socket.bind]

theorem WellFormed.next (h : s.WellFormed) (he : s.enabled e) : (s.next e).WellFormed := by
  have hle := s.nextQueue_le e
  have keep : ∀ {addr q}, q < s.nextQueue ∧ (s.queues q).remote = addr →
      q < (s.next e).nextQueue ∧ ((s.next e).queues q).remote = addr :=
    fun hq => ⟨by omega, by rw [s.next_remote e hq.1, hq.2]⟩
  refine ⟨?_, ?_, ?_, ?_⟩
  · intro addr q hq
    rcases lookup_of_next hq with ⟨hold, _⟩ | ⟨b, rfl⟩ | ⟨rfl, rfl⟩
    · exact keep (h.entry addr q hold)
    · apply keep
      apply h.target addr q
      rw [he]
      rfl
    · obtain ⟨hn, hnew⟩ := s.connect_fresh addr
      exact ⟨by omega, by rw [hnew]; rfl⟩
  · intro addr q hq
    rcases next_target he hq with ⟨ht, _⟩ | ⟨bytes, rfl, hl | ⟨hl, rfl⟩⟩
    · exact keep (h.target addr q ht)
    · exact keep (h.entry addr q hl)
    · obtain ⟨hn, hnew⟩ := datagram_fresh bytes hl
      exact ⟨by omega, by rw [hnew]; rfl⟩
  · intro addr q c hq hc
    rcases next_target he hq with ⟨ht, hins⟩ | ⟨bytes, rfl, hl⟩
    · -- While the read task has a target, only `connect` writes an entry of its address.
      rcases lookup_of_next hc with ⟨hold, hcon, _⟩ | ⟨b, rfl⟩ | ⟨rfl, rfl⟩
      · rw [newest_next hcon]
        exact h.overtaken addr q c ht hold
      · exact absurd rfl (hins addr c b)
      · exact .inr (s.newest_connect addr)
    · rw [next_lookup] at hc
      rcases hl with hl | ⟨hl, rfl⟩
      · exact .inl (Option.some.inj (hc.symm.trans hl))
      · cases hl.symm.trans hc
  · intro d hd
    rw [next_received] at hd ⊢
    cases e with
    | datagram bytes remote =>
      simp only [List.mem_append, List.mem_singleton, List.length_append,
        List.length_singleton] at hd ⊢
      rcases hd with hd | rfl
      · have := h.numbered d hd
        omega
      · simp
    | _ => exact h.numbered d hd

theorem WellFormed.of_reachable (h : Reachable machine s) : s.WellFormed :=
  h.guarded_induct (fun _ hs => hs ▸ .bind) fun _ _ hs he => hs.next he

/-- The invariant of the connections on their way to the accept task: each is alive, and it is
at one place only. -/
structure Handover (s : Socket) : Prop where
  holds : ∀ q, s.readTask.holds = some q → q < s.nextQueue ∧ q ∉ s.incoming.items
  incoming : ∀ q ∈ s.incoming.items, q < s.nextQueue
  nodup : s.incoming.items.Nodup
  alive : ∀ q, s.held q → (s.queues q).receiver = true
  origin : ∀ q, s.held q → (s.queues q).origin = .datagram

theorem Handover.lt (h : s.Handover) {q : ℕ} (hq : s.held q) : q < s.nextQueue := by
  cases hq with
  | inl hq => exact (h.holds q hq).1
  | inr hq => exact h.incoming q hq

theorem Handover.bind : Socket.bind.Handover where
  holds := by simp [Socket.bind, ReadTask.holds]
  incoming := by simp [Socket.bind]
  nodup := by simp [Socket.bind]
  alive := by simp [Socket.bind, held, ReadTask.holds]
  origin := by simp [Socket.bind, held, ReadTask.holds]

/-- No step drops a connection that stays on its way to the accept task. -/
theorem not_drops_of_held (h : s.Handover) (he : s.enabled e) {q : ℕ} (hq : s.held q)
    (hn : (s.next e).held q) : ¬ s.drops e q := by
  rintro (rfl | rfl | ⟨rfl, hmem⟩)
  · exact he.2.2 hq
  · have hnot := (h.holds q (by rw [he.1]; rfl)).2
    cases hn with
    | inl hn => simp [next, ReadTask.holds] at hn
    | inr hn => exact hnot (by simpa [next, updateQueue] using hn)
  · cases hn with
    | inl hn => exact (h.holds q hn).2 hmem
    | inr hn => simp [next] at hn

theorem Handover.next (h : s.Handover) (he : s.enabled e) : (s.next e).Handover := by
  have hle := s.nextQueue_le e
  refine ⟨fun q hq => ?_, fun q hq => ?_, ?_, fun q hq => ?_, fun q hq => ?_⟩
  · rcases next_holds he hq with ⟨hold, hoffer, _⟩ | ⟨bytes, remote, rfl, hl, rfl⟩
    · have hp := h.holds q hold
      refine ⟨by omega, fun hm => ?_⟩
      exact (incoming_of_next he hm).elim hp.2 hoffer
    · have hn := (datagram_fresh bytes hl).1
      refine ⟨by omega, fun hm => ?_⟩
      rcases incoming_of_next he hm with hm | heq
      · have hlt := h.incoming _ hm
        omega
      · cases heq
  · rcases incoming_of_next he hq with hm | rfl
    · have hlt := h.incoming q hm
      omega
    · have hlt := (h.holds q (by rw [he.1]; rfl)).1
      omega
  · rw [next_incoming he]
    cases e with
    | offer p =>
      have hp := (h.holds p (by rw [he.1]; rfl)).2
      exact List.nodup_append.mpr ⟨h.nodup, by simp, by grind⟩
    | take p => exact h.nodup.tail
    | dropAcceptor => simp
    | _ => exact h.nodup
  · rcases held_of_next he hq with hold | ⟨rfl, remote, hnew⟩
    · exact s.receiver_next e (h.lt hold) (h.alive q hold) (not_drops_of_held h he hold hq)
    · rw [hnew]
      rfl
  · rcases held_of_next he hq with hold | ⟨rfl, remote, hnew⟩
    · rw [s.next_origin e (h.lt hold), h.origin q hold]
    · rw [hnew]
      rfl

theorem Handover.of_reachable (h : Reachable machine s) : s.Handover :=
  h.guarded_induct (fun _ hs => hs ▸ .bind) fun _ _ hs he => hs.next he

/-- The connection `q` exists and some task outside the demultiplexer has it. -/
structure Owned (s : Socket) (q : ℕ) : Prop where
  lt : q < s.nextQueue
  receiver : (s.queues q).receiver = true
  handed : ¬ s.held q

/-- Only its owner ends the ownership of a connection. -/
theorem Owned.next {q : ℕ} (h : s.Owned q) (he : s.enabled e) (hd : e ≠ .drop q) :
    (s.next e).Owned q := by
  have hle := s.nextQueue_le e
  have hdrop : ¬ s.drops e q := by
    rintro (rfl | rfl | ⟨rfl, hm⟩)
    · exact hd rfl
    · exact h.handed (.inl (by rw [he.1]; rfl))
    · exact h.handed (.inr hm)
  refine ⟨Nat.lt_of_lt_of_le h.lt hle, s.receiver_next e h.lt h.receiver hdrop, fun hn => ?_⟩
  rcases held_of_next he hn with hold | ⟨rfl, _⟩
  · exact h.handed hold
  · exact Nat.lt_irrefl _ h.lt

theorem Handover.owned_take (h : s.Handover) {q : ℕ} (he : s.enabled (.take q)) :
    (s.next (.take q)).Owned q := by
  obtain ⟨rest, hitems⟩ := List.head?_eq_some_iff.mp he.2
  have hq : s.held q := .inr (by simp [hitems])
  refine ⟨h.lt hq, h.alive q hq, ?_⟩
  have hnodup := h.nodup
  rw [hitems, List.nodup_cons] at hnodup
  rintro (hr | hm)
  · exact (h.holds q hr).2 (by simp [hitems])
  · rw [next_incoming he, hitems] at hm
    exact hnodup.1 hm

theorem Handover.owned_connect (h : s.Handover) (addr : SocketAddr) :
    (s.next (.connect addr)).Owned s.nextQueue := by
  obtain ⟨hn, hnew⟩ := s.connect_fresh addr
  refine ⟨by omega, by rw [hnew]; rfl, fun hh => ?_⟩
  rcases held_of_next (e := .connect addr) trivial hh with hold | ⟨_, remote, hq⟩
  · exact Nat.lt_irrefl _ (h.lt hold)
  · rw [hnew] at hq
    cases hq

end Socket

end Uip.Io
