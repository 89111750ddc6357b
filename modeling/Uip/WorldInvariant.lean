import Uip.NetworkOwnership
import Uip.WorldStep

/-! Invariants of the world: one frame for each record, no number in two places, and clients that
stay bound to their ports. -/
namespace Uip
open TransitionSystem ItemQueues Transport

variable {w : Wiring} {pack : MessagePack}

namespace UnixState

/-- The clients that the accept loop has not let go of. -/
def waiting (u : UnixState) : List ℕ := u.handling.toList ++ u.backlog

/-- A registered client is bound to its port; clients that wait, or that are not there yet, are
not bound. -/
structure Valid (u : UnixState) : Prop where
  registered : ∀ p k, u.connections.lookup p = some k → u.bound k = some p
  waiting : ∀ k ∈ u.waiting, u.clients k = .connected ∧ k < u.nextClient
  nodup : u.waiting.Nodup
  absent : ∀ k, u.nextClient ≤ k → u.clients k = .connected

variable {u : UnixState}

theorem bound_setClient (k i : ℕ) (client : Client) :
    (u.setClient k client).bound i = if i = k then client.port else u.bound i := by
  split_ifs with h
  · subst h
    simp [bound, setClient]
  · simp [bound, setClient, h]

theorem bound_of_connected {k : ℕ} (h : u.clients k = .connected) : u.bound k = none := by
  rw [bound, h]
  rfl

theorem bound_of_clients {k : ℕ} {srcPort : UInt16} {reading : Bool}
    (h : u.clients k = .bound srcPort reading) : u.bound k = some srcPort := by
  rw [bound, h]
  rfl

theorem Valid.new : Valid .new where
  registered p k h := by simp [UnixState.new] at h
  waiting k h := by simp [UnixState.new, UnixState.waiting] at h
  nodup := List.nodup_nil
  absent _ _ := rfl

theorem Valid.connect (h : u.Valid) {n : ℕ} (hn : u.nextClient ≤ n) :
    Valid { u with nextClient := n + 1, backlog := u.backlog ++ [n] } where
  registered := h.registered
  waiting k hk := by
    simp only [UnixState.waiting, ← List.append_assoc] at hk
    rcases List.mem_append.mp hk with hk | hk
    · have hold := h.waiting k hk
      exact ⟨hold.1, Nat.lt_succ_of_lt (Nat.lt_of_lt_of_le hold.2 hn)⟩
    · obtain rfl := List.mem_singleton.mp hk
      exact ⟨h.absent _ hn, Nat.lt_succ_self _⟩
  nodup := by
    have hnew : n ∉ u.waiting := fun hk =>
      absurd (Nat.lt_of_lt_of_le (h.waiting _ hk).2 hn) (lt_irrefl _)
    simp only [UnixState.waiting, ← List.append_assoc]
    exact h.nodup.append (List.nodup_singleton _) (List.disjoint_singleton.mpr hnew)
  absent k hk := h.absent k (Nat.le_trans hn (Nat.le_of_succ_le hk))

theorem Valid.accept (h : u.Valid) {k : ℕ} {rest : List ℕ} (idle : u.handling = none)
    (oldest : u.backlog = k :: rest) : Valid { u with handling := some k, backlog := rest } := by
  have hsame : u.waiting = k :: rest := by simp [UnixState.waiting, idle, oldest]
  refine ⟨h.registered, fun i hi => h.waiting i (hsame ▸ hi), ?_, h.absent⟩
  have hnodup := h.nodup
  rw [hsame] at hnodup
  exact hnodup

theorem Valid.release (h : u.Valid) {k : ℕ} (handling : u.handling = some k) (client : Client)
    (connections : HashMap UInt16 ℕ)
    (registered : ∀ p i, connections.lookup p = some i → (u.setClient k client).bound i = some p) :
    Valid { u.setClient k client with connections := connections, handling := none } := by
  have hsame : u.waiting = k :: u.backlog := by simp [UnixState.waiting, handling]
  have hnodup := List.nodup_cons.mp (hsame ▸ h.nodup)
  have hk := h.waiting k (by simp [hsame])
  refine ⟨registered, fun i hi => ?_, hnodup.2, fun i hi => ?_⟩
  · have hi' : i ∈ u.backlog := hi
    have hne : i ≠ k := by
      rintro rfl
      exact hnodup.1 hi'
    have hold := h.waiting i (by simp [hsame, hi'])
    exact ⟨by simpa [setClient, hne] using hold.1, hold.2⟩
  · have hi' : u.nextClient ≤ i := hi
    have hne : i ≠ k := by
      have := hk.2
      omega
    simpa [setClient, hne] using h.absent i hi'

theorem Valid.handleNewStream (h : u.Valid) {k : ℕ} (handling : u.handling = some k)
    (frame : Unix.Frame) : (u.handleNewStream k frame).Valid := by
  have hk := bound_of_connected (h.waiting k (by simp [UnixState.waiting, handling])).1
  have hold : ∀ p i, u.connections.lookup p = some i → i ≠ k ∧ u.bound i = some p := by
    intro p i hp
    have hi := h.registered p i hp
    refine ⟨?_, hi⟩
    rintro rfl
    simp [hk] at hi
  cases frame with
  | bind srcPort =>
    refine h.release handling (.bound srcPort true) (u.connections.insert srcPort k) ?_
    intro p i hp
    rw [HashMap.lookup_insert_if] at hp
    rw [bound_setClient]
    split_ifs at hp with hs
    · obtain rfl := Option.some.inj hp
      rw [if_pos rfl, hs, Client.port]
    · obtain ⟨hne, hi⟩ := hold p i hp
      rw [if_neg hne, hi]
  | data | error =>
    refine h.release handling .closed u.connections ?_
    intro p i hp
    obtain ⟨hne, hi⟩ := hold p i hp
    rw [bound_setClient, if_neg hne, hi]

/-- What becomes of a client is decided once. -/
def Keeps (u v : UnixState) : Prop :=
  ∀ k, u.clients k ≠ .connected → v.clients k ≠ .connected ∧ v.bound k = u.bound k

theorem Keeps.refl (u : UnixState) : u.Keeps u := fun _ hk => ⟨hk, rfl⟩

theorem Keeps.trans {v x : UnixState} (h : u.Keeps v) (g : v.Keeps x) : u.Keeps x := by
  intro k hk
  obtain ⟨hv, hsame⟩ := h k hk
  obtain ⟨hx, hsame'⟩ := g k hv
  exact ⟨hx, hsame'.trans hsame⟩

theorem Keeps.of_setClient {v : UnixState} {k : ℕ} {client : Client}
    (hv : v.clients = (u.setClient k client).clients)
    (decided : u.clients k ≠ .connected → client ≠ .connected ∧ client.port = u.bound k) :
    u.Keeps v := by
  intro i hi
  rw [bound, hv]
  by_cases hik : i = k
  · subst hik
    simpa [setClient] using decided hi
  · simpa [setClient, hik, bound] using hi

theorem keeps_handleNewStream (h : u.Valid) {k : ℕ} (handling : u.handling = some k)
    (frame : Unix.Frame) : u.Keeps (u.handleNewStream k frame) := by
  have hk := (h.waiting k (by simp [UnixState.waiting, handling])).1
  cases frame <;> exact .of_setClient rfl (absurd hk)

theorem endOfStream_cases {k : ℕ}
    (ends : u.handling = some k ∨ (u.bound k).isSome = true) :
    (∃ srcPort, u.bound k = some srcPort ∧
      u.endOfStream k = u.setClient k (.bound srcPort false)) ∨
    (u.handling = some k ∧ u.endOfStream k = { u.setClient k .closed with handling := none }) := by
  cases hc : u.clients k with
  | bound srcPort reading =>
    exact .inl ⟨srcPort, bound_of_clients hc, by simp [endOfStream, hc]⟩
  | connected | closed =>
    refine .inr ⟨?_, by simp [endOfStream, hc]⟩
    simpa [bound, hc, Client.port] using ends

theorem Valid.endOfStream (h : u.Valid) {k : ℕ}
    (ends : u.handling = some k ∨ (u.bound k).isSome = true) : (u.endOfStream k).Valid := by
  rcases endOfStream_cases ends with ⟨srcPort, hk, he⟩ | ⟨hk, he⟩
  · have hnot : ∀ i, u.clients i = .connected → i ≠ k := by
      rintro i hi rfl
      simp [bound_of_connected hi] at hk
    rw [he]
    refine ⟨fun p i hp => ?_, fun i hi => ?_, h.nodup, fun i hi => ?_⟩
    · have hold := h.registered p i hp
      rw [bound_setClient]
      split_ifs with hik
      · rw [hik, hk] at hold
        exact hold
      · exact hold
    · have hold := h.waiting i hi
      exact ⟨by simpa [setClient, hnot i hold.1] using hold.1, hold.2⟩
    · have hold := h.absent i hi
      simpa [setClient, hnot i hold] using hold
  · rw [he]
    have hbound := bound_of_connected (h.waiting k (by simp [UnixState.waiting, hk])).1
    refine h.release hk .closed u.connections ?_
    intro p i hp
    have hi := h.registered p i hp
    have hne : i ≠ k := by
      rintro rfl
      simp [hbound] at hi
    rw [bound_setClient, if_neg hne, hi]

theorem keeps_endOfStream (h : u.Valid) {k : ℕ}
    (ends : u.handling = some k ∨ (u.bound k).isSome = true) : u.Keeps (u.endOfStream k) := by
  rcases endOfStream_cases ends with ⟨srcPort, hk, he⟩ | ⟨hk, he⟩
  · rw [he]
    exact .of_setClient rfl fun _ => ⟨by simp, hk.symm⟩
  · rw [he]
    have hconnected := (h.waiting k (by simp [UnixState.waiting, hk])).1
    exact .of_setClient rfl (absurd hconnected)

end UnixState

namespace World

variable {s t : World} {e : WorldEvent}

section Records

theorem bounded_of_length {frame : Frame} (h : (Codec.encoding frame).length ≤ w.maxRecord) :
    Codec.Bounded frame := by
  have hmax := w.maxRecord_le
  cases frame with
  | ping => trivial
  | pong => trivial
  | data srcPort dstPort data =>
    rw [Codec.encoding_data, List.length_append] at h
    change data.length ≤ 65535
    omega

theorem isEncoding_of_hop {x y : Place} {c : x.Content} {c' : y.Content} (n : Number)
    (h : s.Hop w x c y c') : isEncoding y n c' := by
  cases h with
  | writing e frame fits => exact ⟨frame, bounded_of_length fits, rfl⟩
  | _ => trivial

theorem Framed.new (network : Identifier → NetworkState) : (World.new network).Framed where
  flight x item hi := by simp [World.new, empty] at hi
  buffer _ := rfl

/-- A property that items get on the way, and that new items and new forms have anyway. -/
theorem Step.all {P : (x : Place) → Number → x.Content → Prop} (step : Step w pack s e t)
    (old : All s.queue P)
    (hop : ∀ {x y n c c'}, e = .advance x n → s.content x n = some c → s.Hop w x c y c' →
      P y n c')
    (inbox : ∀ h k n frame, P (.inbox h k) n frame) (sink : ∀ e n frame, P (.sink e) n frame)
    (decoded : ∀ e n frame, P (.decoded e) n frame)
    (replying : ∀ h j n reply, P (.replying h j) n reply) : All t.queue P := by
  cases step with
  | connect | accept | endOfStream => exact old
  | write => exact old.push (inbox _ _ _ _)
  | firstFrame | drop | stop | process | lose => exact old.erase _ _
  | pass x n c y c' found hop' => exact (old.erase x n).push (hop rfl found hop')
  | send => exact (old.erase _ _).push (sink _ _ _)
  | arrive => exact (old.erase _ _).push (decoded _ _ _)
  | answer => exact (old.erase _ _).push (replying _ _ _ _)
  | ping | control => exact old.push (sink _ _ _)
  | pong | reply => exact (old.erase _ _).push (sink _ _ _)

theorem Framed.step (h : s.Framed) (hs : Step w pack s e t) : t.Framed := by
  have hbuffer : t.buffer = s.buffer := by cases hs <;> rfl
  refine ⟨?_, fun e => hbuffer ▸ h.buffer e⟩
  exact hs.all h.flight (fun _ _ hop => isEncoding_of_hop _ hop) (fun _ _ _ _ => trivial)
    (fun _ _ _ => trivial) (fun _ _ _ => trivial) fun _ _ _ _ => trivial

end Records

section Clients

/-- A number that has been given to an item. -/
def Issued (s : World) : Number → Prop
  | .client h k i => i < (s.written h k).length
  | .daemon e i => i < s.sent e

/-- What a world has recorded stays recorded, and what became of a client stays so. -/
structure Extends (s t : World) : Prop where
  written : ∀ h k (i : ℕ) frame, (s.written h k)[i]? = some frame →
    (t.written h k)[i]? = some frame
  sent : ∀ e, s.sent e ≤ t.sent e
  unix : ∀ h, (s.unix h).Keeps (t.unix h)

theorem Extends.of_same (written : t.written = s.written) (sent : t.sent = s.sent)
    (unix : ∀ h, (t.unix h).clients = (s.unix h).clients) : Extends s t :=
  ⟨fun _ _ _ _ h => written ▸ h, fun _ => sent ▸ le_rfl, fun h k hk => by
    rw [UnixState.bound, unix h]
    exact ⟨hk, rfl⟩⟩

theorem Extends.refl (s : World) : Extends s s := .of_same rfl rfl fun _ => rfl

theorem Extends.trans {u : World} (h : Extends s t) (g : Extends t u) : Extends s u :=
  ⟨fun h' k i f hf => g.written h' k i f (h.written h' k i f hf),
    fun e => Nat.le_trans (h.sent e) (g.sent e), fun h' => (h.unix h').trans (g.unix h')⟩

theorem Extends.bound (h : Extends s t) {h' : Identifier} {k : ℕ} {p : UInt16}
    (hp : (s.unix h').bound k = some p) : (t.unix h').bound k = some p := by
  have hk : (s.unix h').clients k ≠ .connected := by
    intro hc
    simp [UnixState.bound_of_connected hc] at hp
  exact (h.unix h' k hk).2.trans hp

theorem Extends.issued (h : Extends s t) {n : Number} (hn : s.Issued n) : t.Issued n := by
  cases n with
  | client h' k i =>
    have hi := h.written h' k i _ (List.getElem?_eq_getElem hn)
    exact (List.getElem?_eq_some_iff.mp hi).1
  | daemon e i => exact Nat.lt_of_lt_of_le hn (h.sent e)

theorem Extends.of_unix {h : Identifier} {u : UnixState} (written : t.written = s.written)
    (sent : t.sent = s.sent) (unix : t.unix = Function.update s.unix h u)
    (keeps : (s.unix h).Keeps u) : Extends s t := by
  refine ⟨fun _ _ _ _ hf => written ▸ hf, fun _ => sent ▸ le_rfl, fun h' => ?_⟩
  rw [unix]
  by_cases hh : h' = h
  · subst hh
    simpa using keeps
  · rw [Function.update_of_ne hh]
    exact .refl _

theorem Extends.of_sent {e : ℕ} (written : t.written = s.written)
    (sent : t.sent = Function.update s.sent e (s.sent e + 1)) (unix : t.unix = s.unix) :
    Extends s t := by
  refine ⟨fun _ _ _ _ hf => written ▸ hf, fun e' => ?_, fun _ => unix ▸ .refl _⟩
  rw [sent]
  by_cases he : e' = e
  · subst he
    simp
  · simp [he]

theorem Extends.of_written {h : Identifier} {k : ℕ} {frame : Unix.Frame}
    (written : t.written = Function.update s.written h
      (Function.update (s.written h) k (s.written h k ++ [frame])))
    (sent : t.sent = s.sent) (unix : t.unix = s.unix) : Extends s t := by
  refine ⟨fun h' k' i f hf => ?_, fun _ => sent ▸ le_rfl, fun _ => unix ▸ .refl _⟩
  rw [written]
  by_cases hh : h' = h
  · subst hh
    by_cases hk : k' = k
    · subst hk
      have hi := (List.getElem?_eq_some_iff.mp hf).1
      simpa [List.getElem?_append_left hi] using hf
    · simpa [hk] using hf
  · simpa [hh] using hf

def Valid (s : World) : Prop := ∀ h, (s.unix h).Valid

theorem Valid.setUnix (hv : s.Valid) {h : Identifier} {u : UnixState} (hu : u.Valid) :
    (s.setUnix h u).Valid := by
  intro h'
  by_cases hh : h' = h
  · subst hh
    simpa [World.setUnix] using hu
  · simpa [World.setUnix, hh] using hv h'

theorem Valid.step (hv : s.Valid) (hs : Step w pack s e t) : t.Valid := by
  cases hs with
  | connect h => exact hv.setUnix ((hv h).connect le_rfl)
  | accept h k rest idle oldest => exact hv.setUnix ((hv h).accept idle oldest)
  | firstFrame h k n frame handling found =>
    exact Valid.setUnix (s := s.take (.inbox h k) n) hv ((hv h).handleNewStream handling frame)
  | endOfStream h k ends => exact hv.setUnix ((hv h).endOfStream ends)
  | stop h k n srcPort frame found reads unhandled =>
    have ends : ((s.unix h).bound k).isSome = true := by
      rw [UnixState.bound_of_clients reads, Option.isSome_some]
    exact Valid.setUnix (s := s.take (.inbox h k) n) hv ((hv h).endOfStream (.inr ends))
  | _ => exact hv

theorem Step.extends (hv : s.Valid) (hs : Step w pack s e t) : Extends s t := by
  cases hs with
  | connect | accept => exact .of_unix rfl rfl rfl fun _ hk => ⟨hk, rfl⟩
  | firstFrame h k n frame handling found =>
    exact .of_unix rfl rfl rfl (UnixState.keeps_handleNewStream (hv h) handling frame)
  | endOfStream h k ends => exact .of_unix rfl rfl rfl (UnixState.keeps_endOfStream (hv h) ends)
  | stop h k n srcPort frame found reads unhandled =>
    have ends : ((s.unix h).bound k).isSome = true := by
      rw [UnixState.bound_of_clients reads, Option.isSome_some]
    exact .of_unix rfl rfl rfl (UnixState.keeps_endOfStream (hv h) (.inr ends))
  | write => exact .of_written rfl rfl rfl
  | ping | pong | control | reply => exact .of_sent rfl rfl rfl
  | _ => exact .of_same rfl rfl fun _ => rfl

end Clients

section Numbers

/-- Every number is in one place at most, and has been given to an item. -/
structure Numbered (s : World) : Prop where
  once : Once s.queue
  issued : ∀ x, ∀ n ∈ numbers s.queue x, s.Issued n

theorem Numbered.new (network : Identifier → NetworkState) : (World.new network).Numbered :=
  ⟨.empty, fun x n hn => by simp [World.new, numbers, empty] at hn⟩

theorem Numbered.kept (h : s.Numbered) (hext : Extends s t) (hq : t.queue = s.queue) :
    t.Numbered :=
  ⟨hq ▸ h.once, fun x n hn => hext.issued (h.issued x n (hq ▸ hn))⟩

theorem Numbered.erased (h : s.Numbered) (hext : Extends s t) {x : Place} {n : Number}
    (hq : t.queue = erase s.queue x n) : t.Numbered := by
  refine ⟨hq ▸ h.once.erase x n, fun y m hm => hext.issued (h.issued y m ?_)⟩
  rw [hq] at hm
  exact mem_numbers_of_erase hm

theorem Numbered.moved (h : s.Numbered) (hext : Extends s t) {x y : Place} {n : Number}
    {c : x.Content} {c' : y.Content} (found : s.content x n = some c)
    (hq : t.queue = push (erase s.queue x n) y n c') : t.Numbered := by
  have hn := mem_numbers_of_find found
  refine ⟨hq ▸ (h.once.erase x n).push (h.once.not_mem_erase hn) y c', fun z m hm => ?_⟩
  rw [hq] at hm
  apply hext.issued
  rcases mem_numbers_push.mp hm with hm | ⟨-, rfl⟩
  · exact h.issued z m (mem_numbers_of_erase hm)
  · exact h.issued x m hn

theorem Numbered.added (h : s.Numbered) (hext : Extends s t) {y : Place} {n : Number}
    {c : y.Content} (hq : t.queue = push s.queue y n c) (new : ¬ s.Issued n)
    (issued : t.Issued n) : t.Numbered := by
  refine ⟨hq ▸ h.once.push (fun x hx => new (h.issued x n hx)) y c, fun z m hm => ?_⟩
  rw [hq] at hm
  rcases mem_numbers_push.mp hm with hm | ⟨-, rfl⟩
  · exact hext.issued (h.issued z m hm)
  · exact issued

theorem Numbered.sent (h : s.Numbered) {e : ℕ} {frame : Frame}
    (hext : Extends s t) (hq : t.queue = push s.queue (.sink e) (.daemon e (s.sent e)) frame)
    (sent : t.sent = Function.update s.sent e (s.sent e + 1)) : t.Numbered :=
  h.added hext hq (lt_irrefl (s.sent e)) (by simp [Issued, sent])

theorem Numbered.step (h : s.Numbered) (hv : s.Valid) (hs : Step w pack s e t) : t.Numbered := by
  have hext := hs.extends hv
  cases hs with
  | connect | accept | endOfStream => exact h.kept hext rfl
  | write h' k frame =>
    exact h.added hext rfl (lt_irrefl (s.written h' k).length) (by simp [Issued])
  | firstFrame | drop | stop | process | lose => exact h.erased hext rfl
  | pass x n c y c' found hop => exact h.moved hext found rfl
  | send e n tuple found remote => exact h.moved hext found rfl
  | arrive e n f bounded found => exact h.moved hext found rfl
  | answer h' j n tuple network reply found => exact h.moved hext found rfl
  | ping | control => exact h.sent hext rfl rfl
  | pong e n found =>
    have htake : (s.take (.decoded e) n).Numbered := h.erased (.of_same rfl rfl fun _ => rfl) rfl
    exact htake.sent (.of_sent rfl rfl rfl) rfl rfl
  | reply j e n reply data found =>
    have htake : (s.take (.replying (w.host e) j) n).Numbered :=
      h.erased (.of_same rfl rfl fun _ => rfl) rfl
    exact htake.sent (.of_sent rfl rfl rfl) rfl rfl

end Numbers

section Networks

theorem network_elim {α : Type} {h : Identifier} {f : α → World} (found : Option α)
    (hf : ∀ a, (f a).network h = s.network h) : (found.elim s f).network h = s.network h := by
  cases found with
  | none => rfl
  | some a => exact hf a

theorem network_process {h h' : Identifier} (hne : h ≠ h') (j : ℕ) (n : Number)
    (tuple : Delivery) : (s.process pack h' j n tuple).network h = s.network h := by
  unfold process
  split
  · exact Function.update_of_ne hne _ _
  · exact Function.update_of_ne hne _ _
  · rfl

theorem network_process_self (h : Identifier) (j : ℕ) (n : Number) (tuple : Delivery) :
    (s.process pack h j n tuple).network h = s.network h ∨
    ∃ reply, (s.network h).processControlMessage pack tuple.hostId tuple.data =
      some ((s.process pack h j n tuple).network h, reply) := by
  cases hp : (s.network h).processControlMessage pack tuple.hostId tuple.data with
  | none => simp [process, hp]
  | some result =>
    obtain ⟨network, reply⟩ := result
    refine .inr ⟨reply, ?_⟩
    cases reply <;> simp [process, hp]

theorem next_network (s : World) (e : WorldEvent) (h : Identifier) :
    (s.next w pack e).network h = s.network h ∨
    ∃ hostId data reply, (s.network h).processControlMessage pack hostId data =
      some ((s.next w pack e).network h, reply) := by
  cases e with
  | process h' j n =>
    by_cases hh : h = h'
    · subst hh
      simp only [next]
      cases s.content (.delivering h j) n with
      | none => exact .inl rfl
      | some tuple =>
        exact (network_process_self h j n tuple).imp_right fun hp =>
          ⟨tuple.hostId, tuple.data, hp⟩
    · exact .inl (network_elim _ (network_process hh j n))
  | advance x n =>
    simp only [next]
    cases s.effect w x n <;> exact .inl rfl
  | reply h' j e i n =>
    refine .inl (network_elim _ fun reply => ?_)
    unfold World.reply
    split <;> rfl
  | firstFrame | send | arrive | control => exact .inl (network_elim _ fun _ => rfl)
  | _ => exact .inl rfl

end Networks

end World

/-- The network state of each daemon changes by processing control messages only. -/
theorem worldMachine_refines (h : Identifier) :
    Refines (worldMachine w pack) (NetworkState.controlMachine pack) fun s => s.network h := by
  refine ⟨fun _ _ => trivial, fun s e t hst => ?_⟩
  obtain ⟨he, rfl⟩ := guarded_step.mp hst
  rcases s.next_network e h with hs | ⟨hostId, data, reply, hp⟩
  · exact ⟨[], by rw [hs, exec_nil]⟩
  · have hstep : (NetworkState.controlMachine pack).step (s.network h) (hostId, data) = some _ :=
      NetworkState.controlMachine_step.mpr ⟨reply, hp⟩
    exact ⟨[(hostId, data)], exec_step hstep []⟩

end Uip
