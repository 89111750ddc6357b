import Uip.WorldAddressing
import Uip.WorldPurge

/-! Clients of a daemon that stay off port 0 leave no trace in any peer information base. -/
namespace Uip
open TransitionSystem ItemQueues Transport

variable {w : Wiring} {pack : MessagePack}

namespace World

variable {s t : World} {e : WorldEvent} {A : Identifier} {x y : Place} {n : Number}

section Hidden

/-- What a daemon issues stays off the queues between its clients and its network state. -/
def Outward (s : World) : Prop := ∀ x e i, .daemon e i ∈ numbers s.queue x → 4 ≤ x.rank

theorem Outward.step (h : s.Outward) (step : Step w pack s e t) : t.Outward := by
  intro y e' i hn
  rcases step.origin hn with hn | ⟨x, c, c', -, found, hop⟩ | ⟨x, hx, hlt, -⟩ | ⟨-, hnew⟩
  · exact h y e' i hn
  · have hx := h x e' i (mem_numbers_of_find found)
    have hlt := hop.rank_lt
    omega
  · have hx := h x e' i hx
    omega
  · rcases hnew with ⟨h', k, -, j, hj⟩ | ⟨e'', rfl, -⟩
    · cases hj
    · exact le_rfl

/-- No client of `A` that is bound to port 0 has sent data to port 0 of a host to which `A` has a
connection. -/
def Spares (w : Wiring) (A : Identifier) (s : World) : Prop :=
  ∀ k (i : ℕ) hostId data, (s.unix A).bound k = some 0 →
    (s.written A k)[i]? = some (.data hostId 0 data) →
      ∀ e, w.host e = A → w.remoteId e ≠ hostId

theorem Spares.of_extends {u : World} (h : u.Spares w A) (hext : Extends s u) : s.Spares w A :=
  fun k i hostId data hb hw => h k i hostId data (hext.bound hb) (hext.written _ _ _ _ hw)

theorem Spares.not_control (h : s.Spares w A) {k i : ℕ} {sent : Delivery}
    (sends : s.Sends A k i sent) {e : ℕ} (leads : w.Leads A sent.hostId e) :
    ¬ sent.isControl := by
  rintro ⟨hsrc, hdst⟩
  obtain ⟨e', -, hhost, hremote⟩ := leads
  have hbound : (s.unix A).bound k = some 0 := hsrc ▸ sends.2
  have hwritten : (s.written A k)[i]? = some (.data sent.hostId 0 sent.data) := by
    rw [← hdst]
    exact sends.1
  exact h k i sent.hostId sent.data hbound hwritten e' hhost hremote

theorem exists_client (h : n.ofClient A = true) : ∃ k i, n = .client A k i := by
  cases n with
  | client h' k i =>
    obtain rfl : h' = A := by simpa [Number.ofClient] using h
    exact ⟨k, i, rfl⟩
  | daemon e i => simp [Number.ofClient] at h

/-- The items of a client of `A` that are not in its inbox are parts of what it sends. -/
theorem Sound.sends_of_kept (hs : s.Sound w) {c : x.Content} (found : s.content x n = some c)
    (hx : x.ofClients A = false) (hk : kept A x n = false) :
    ∃ k i sent, s.Sends A k i sent ∧ s.Routed w A sent x c := by
  have hn : n.ofClient A = true := by
    by_contra hnot
    rw [Bool.not_eq_true] at hnot
    simp [kept_iff.mpr ⟨hx, hnot⟩] at hk
  obtain ⟨k, i, rfl⟩ := exists_client hn
  rcases hs.traced.of_find found A k i rfl with hunread | ⟨sent, hsent, hrouted⟩
  · cases x with
    | inbox h' k' =>
      obtain ⟨rfl, -⟩ := hunread
      simp [Place.ofClients] at hx
    | _ => exact hunread.elim
  · exact ⟨k, i, sent, hsent, hrouted⟩

theorem Sound.host_of_kept (hs : s.Sound w) {h : Identifier} {k : ℕ} {frame : Unix.Frame}
    (found : s.content (.inbox h k) n = some frame) (hk : kept A (.inbox h k) n = false) :
    h = A := by
  by_contra hh
  obtain ⟨k', i, sent, -, hrouted⟩ := hs.sends_of_kept found (by simp [Place.ofClients, hh]) hk
  exact hrouted

theorem Sound.ofClient_of_kept (hs : s.Sound w) (ho : s.Outward) {h : Identifier}
    {tuple : Delivery} (found : s.content (.unixToNetwork h) n = some tuple)
    (hk : kept A (.unixToNetwork h) n = false) : n.ofClient A = true := by
  by_contra hnot
  rw [Bool.not_eq_true] at hnot
  have hh : h = A := by
    by_contra hh
    have hx : (Place.unixToNetwork h).ofClients A = false := by simp [Place.ofClients, hh]
    simp [kept_iff.mpr ⟨hx, hnot⟩] at hk
  subst hh
  cases n with
  | daemon e i =>
    have hrank := ho _ e i (mem_numbers_of_find found)
    simp [Place.rank] at hrank
  | client h' k i =>
    rcases hs.traced.of_find found h' k i rfl with hunread | ⟨sent, -, rfl, -⟩
    · exact hunread
    · simp [Number.ofClient] at hnot

theorem kept_of_ofClient (hn : n.ofClient A = true) (y : Place) : kept A y n = false := by
  simp [kept, hn]

theorem purge_hop {c : x.Content} {c' : y.Content} (hop : s.Hop w x c y c')
    (hk : kept A x n = false) : (s.pass x n y c').purge A = s.purge A := by
  have hy : kept A y n = false := by
    by_cases hn : n.ofClient A = true
    · exact kept_of_ofClient hn y
    · have hx : x.ofClients A = true := by simpa [kept, hn] using hk
      have hne : x ≠ .networkToUnix A := by
        rintro rfl
        simp [Place.ofClients] at hx
      simp [kept, hop.ofClients hne, hx]
  rw [purge_pass_not hy, purge_take_not hk]

theorem purge_hidden (hs : s.Sound w) (ho : s.Outward) (spares : s.Spares w A)
    (hv : e.visible A = false) (step : Step w pack s e t) : t.purge A = s.purge A := by
  cases step with
  | connect h | accept h | endOfStream h =>
    obtain rfl : h = A := by simpa [WorldEvent.visible] using hv
    exact purge_setUnix_self _
  | write h k frame =>
    obtain rfl : h = A := by simpa [WorldEvent.visible] using hv
    have hk : kept h (.inbox h k) (.client h k (s.written h k).length) = false := by
      simp [kept, Place.ofClients]
    simp [purge, keep_push, hk]
  | firstFrame h k n frame handling found =>
    obtain rfl := hs.host_of_kept found hv
    exact (purge_setUnix_self _).trans (purge_take_not hv)
  | stop h k n srcPort frame found =>
    obtain rfl := hs.host_of_kept found hv
    exact (purge_setUnix_self _).trans (purge_take_not hv)
  | pass x n c y c' found hop => exact purge_hop hop hv
  | drop | lose => exact purge_take_not hv
  | send e n tuple found remote =>
    have hn := hs.ofClient_of_kept ho found hv
    exact (purge_pass_not (kept_of_ofClient hn _)).trans (purge_take_not hv)
  | arrive e n f bounded found =>
    have hn : n.ofClient A = true := by simpa [WorldEvent.visible, kept, Place.ofClients] using hv
    exact (purge_pass_not (kept_of_ofClient hn _)).trans (purge_take_not hv)
  | ping | control => simp [WorldEvent.visible] at hv
  | pong e n found =>
    obtain ⟨k, i, sent, -, -, hframe⟩ := hs.sends_of_kept found rfl hv
    cases hframe
  | process h j n tuple network found control =>
    obtain ⟨k, i, sent, hsent, e, leads, -, rfl⟩ := hs.sends_of_kept found rfl hv
    exact (spares.not_control hsent leads control).elim
  | answer h j n tuple network reply found control =>
    obtain ⟨k, i, sent, hsent, e, leads, -, rfl⟩ := hs.sends_of_kept found rfl hv
    exact (spares.not_control hsent leads control).elim
  | reply j e n reply data found =>
    obtain ⟨k, i, sent, hsent, e', leads, -, control⟩ := hs.sends_of_kept found rfl hv
    exact (spares.not_control hsent leads control).elim

end Hidden

theorem Spares.not_process (spares : s.Spares w A) (hs : s.Sound w) (step : Step w pack s e t)
    (h : Identifier) (j k i : ℕ) : e ≠ .process h j (.client A k i) := by
  rintro rfl
  have hk : kept A (.delivering h j) (.client A k i) = false := by
    simp [kept, Number.ofClient]
  obtain ⟨tuple, found, control⟩ := step.control_of_process
  obtain ⟨k', i', sent, hsent, e, leads, -, rfl⟩ := hs.sends_of_kept found rfl hk
  exact spares.not_control hsent leads control

section Runs

/-- All that a run does is the doing of the clients of `A`, or a run without them. -/
theorem exec_purge (r : Run (worldMachine w pack)) (spares : r.final.Spares w A) :
    exec (worldMachine w pack) (r.start.purge A)
      ((r.transitions.map Transition.label).filter (WorldEvent.visible A)) =
        some (r.final.purge A) := by
  have hstart : r.start.Sound w ∧ r.start.Outward := by
    refine ⟨.of_init r.starts, ?_⟩
    obtain ⟨network, hr⟩ := r.starts
    simp [hr, World.new, Outward, numbers, empty]
  have houtward := (r.path.preserves (P := fun s => s.Sound w ∧ s.Outward)
    (fun s e t h step => ⟨h.1.next step, h.2.step (h.1.step_of_next step)⟩) hstart).2
  apply r.path.exec_projection
  · intro x hx hv
    exact step_purge ((sound_of_mem r).2 x hx).1.framed hv (r.path.step_of_mem hx)
  · intro x hx hv
    obtain ⟨hs, step, hext, -⟩ := (sound_of_mem r).2 x hx
    exact purge_hidden hs (houtward x hx).1.2 (spares.of_extends hext) hv step

/-- Two runs that differ only in what the clients of `A` do, none of which are bound to port 0 and
send data to port 0 of a peer of `A`: all daemons come to know the same and reply the same, and no
frame of a client of `A` is processed as a control message. -/
theorem clients_cannot_control (r r' : Run (worldMachine w pack)) (starts : r.start = r'.start)
    (same : (r.transitions.map Transition.label).filter (WorldEvent.visible A) =
      (r'.transitions.map Transition.label).filter (WorldEvent.visible A))
    (spares : r.final.Spares w A) (spares' : r'.final.Spares w A) (B : Identifier) :
    r.final.network B = r'.final.network B ∧ r.final.replies B = r'.final.replies B ∧
      ∀ x ∈ r.transitions, ∀ h j k i, x.label ≠ .process h j (.client A k i) := by
  have hfinal : r.final.purge A = r'.final.purge A := by
    have hexec := exec_purge r spares
    rw [starts, same, exec_purge r' spares'] at hexec
    exact (Option.some.inj hexec).symm
  refine ⟨congrFun (congrArg network hfinal) B, congrFun (congrArg replies hfinal) B, ?_⟩
  intro x hx h j k i
  obtain ⟨hs, step, hext, -⟩ := (sound_of_mem r).2 x hx
  exact (spares.of_extends hext).not_process hs step h j k i

end Runs

theorem spares_of_single {p : UInt16} (hv : s.Valid) (single : (s.unix A).nextClient = 1)
    (hb : (s.unix A).bound 0 = some p) (hp : p ≠ 0) : s.Spares w A := by
  intro k i hostId data hbound
  cases k with
  | zero => exact absurd (Option.some.inj (hb.symm.trans hbound)) hp
  | succ k =>
    have habsent := (hv A).absent (k + 1) (by omega)
    simp [UnixState.bound_of_connected habsent] at hbound

end World

/-- A record that claims to be that of `nearHost`, in the form of a control message. -/
def forgedPack : MessagePack := .ofTable [writePeerInfo nearHost []]

open World in
/-- A client of `nearHost` that is bound to port 0 sends a record to port 0 of `farHost`, which
takes it over; without the client, nothing of that happens. -/
theorem client_controls_peer :
    ∃ r r' : Run (worldMachine pairWiring forgedPack), r.start = r'.start ∧
      (r.transitions.map Transition.label).filter (WorldEvent.visible nearHost) =
        (r'.transitions.map Transition.label).filter (WorldEvent.visible nearHost) ∧
      .process farHost 0 (.client nearHost 0 1) ∈ r.transitions.map Transition.label ∧
      (r.final.network farHost).pib.getPeer nearHost = some ⟨nearHost, [], []⟩ ∧
      (r'.final.network farHost).pib.getPeer nearHost = none := by
  let events := binding nearHost 0 0 ++ sending 1 0 (writePeerInfo nearHost []).2 ++
    [.process farHost 0 (.client nearHost 0 1)]
  have hrun : (exec (worldMachine pairWiring forgedPack) (.new emptyNetwork) events).any (fun t =>
      decide ((t.network farHost).pib.getPeer nearHost = some ⟨nearHost, [], []⟩)) = true := by
    decide +kernel
  have hinit : (worldMachine pairWiring forgedPack).init (.new emptyNetwork) :=
    ⟨emptyNetwork, rfl⟩
  have hhidden : events.filter (WorldEvent.visible nearHost) = [] := by decide +kernel
  obtain ⟨r, hstart, hlabels, hfinal⟩ := exec_final hinit events hrun
  refine ⟨r, ⟨_, [], _, hinit, .nil _⟩, hstart, ?_, ?_, of_decide_eq_true hfinal, rfl⟩
  · rw [hlabels, hhidden]
    rfl
  · rw [hlabels]
    simp [events]

open World in
/-- A client of `nearHost` that is bound to port 5 sends the same record to port 0 of `farHost`,
where a client gets it as data. -/
theorem clients_cannot_control_data :
    ∃ r r' : Run (worldMachine pairWiring forgedPack),
      r.final.Received farHost 0 (.client nearHost 0 1) ∧
        r.final.network farHost = r'.final.network farHost ∧
        r.final.replies farHost = r'.final.replies farHost := by
  let events := binding nearHost 0 5 ++ binding farHost 0 0 ++
    sending 1 0 (writePeerInfo nearHost []).2 ++ forwarding 1 0
  have hinit : (worldMachine pairWiring forgedPack).init (.new emptyNetwork) :=
    ⟨emptyNetwork, rfl⟩
  have hrun : (exec (worldMachine pairWiring forgedPack) (.new emptyNetwork) events).any (fun t =>
      decide ((t.unix nearHost).nextClient = 1 ∧ (t.unix nearHost).bound 0 = some 5 ∧
        .client nearHost 0 1 ∈ numbers t.queue (.stream farHost 0))) = true := by
    decide +kernel
  have hrun' : (exec (worldMachine pairWiring forgedPack) (.new emptyNetwork)
      (binding farHost 0 0)).any (fun t => decide ((t.unix nearHost).nextClient = 0)) = true := by
    decide +kernel
  obtain ⟨r, hstart, hlabels, hfinal⟩ := exec_final hinit _ hrun
  obtain ⟨r', hstart', hlabels', hfinal'⟩ := exec_final hinit _ hrun'
  obtain ⟨hsingle, hbound, hreceived⟩ := of_decide_eq_true hfinal
  have hspares : r.final.Spares pairWiring nearHost :=
    spares_of_single (Sound.of_reachable r.reachable).valid hsingle hbound (by decide)
  have hspares' : r'.final.Spares pairWiring nearHost := by
    intro k i hostId data hb
    have habsent := ((Sound.of_reachable r'.reachable).valid nearHost).absent k
      (by rw [of_decide_eq_true hfinal']; omega)
    simp [UnixState.bound_of_connected habsent] at hb
  have hsame : (r.transitions.map Transition.label).filter (WorldEvent.visible nearHost) =
      (r'.transitions.map Transition.label).filter (WorldEvent.visible nearHost) := by
    rw [hlabels, hlabels']
    decide +kernel
  obtain ⟨hnetwork, hreplies, -⟩ := clients_cannot_control r r' (hstart.trans hstart'.symm) hsame
    hspares hspares' farHost
  exact ⟨r, r', .inr hreceived, hnetwork, hreplies⟩

end Uip
