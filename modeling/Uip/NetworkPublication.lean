import Uip.NetworkState
import Mathlib.Logic.Function.Basic

/-! The publications of one peer, queued in the same order on each of its connections to this
host and processed in any order that keeps every single connection in order. Messages of other
hosts may come in between. -/
namespace Uip.NetworkState
open TransitionSystem

variable {ι : Type*}

structure Arrivals (ι : Type*) where
  host : NetworkState
  pending : ι → List Bytes

inductive Arrival (ι : Type*)
  | arrive (connection : ι)
  | other (hostId : Identifier) (data : Bytes)

/-- `frames` are what `send_peer_info` queues for the publications of `x`. -/
def Published (pack : MessagePack) (x : Identifier) (publications : List Peer)
    (frames : List Bytes) : Prop :=
  List.Forall₂ (fun peer data => peer.id = x ∧ sendPeerInfo pack peer = some data)
    publications frames

/-- How many frames of the connection `i` have been processed. -/
def progress (frames : List Bytes) (s : Arrivals ι) (i : ι) : ℕ :=
  frames.length - (s.pending i).length

/-- Each connection still holds a tail of the published frames. -/
def InOrder (frames : List Bytes) (s : Arrivals ι) : Prop := ∀ i, s.pending i <:+ frames

theorem InOrder.of_start {frames : List Bytes} {s : Arrivals ι}
    (hs : ∀ i, s.pending i = frames) : InOrder frames s := fun i => hs i ▸ List.suffix_rfl

variable [DecidableEq ι]

/-- The deliver tasks of the host, for the frames of the peer `x` and of other hosts. -/
def arrivalMachine (pack : MessagePack) (x : Identifier) (frames : List Bytes) :
    Machine (Arrivals ι) (Arrival ι) where
  init s := ∀ i, s.pending i = frames
  step s
    | .arrive i =>
      match s.pending i with
      | [] => none
      | data :: rest => (s.host.processControlMessage pack x data).map fun r =>
          ⟨r.1, Function.update s.pending i rest⟩
    | .other hostId data =>
      if hostId = x then none
      else (s.host.processControlMessage pack hostId data).map fun r => ⟨r.1, s.pending⟩

variable {pack : MessagePack} {x : Identifier} {publications : List Peer} {frames : List Bytes}

theorem Published.length (h : Published pack x publications frames) :
    publications.length = frames.length := List.Forall₂.length_eq h

theorem Published.ownRecord (hpack : ∀ peer ∈ publications, pack.ReadsBack (.peerInfo ⟨peer⟩))
    (h : Published pack x publications frames) {k : ℕ} {data : Bytes}
    (hd : frames[k]? = some data) :
    ownRecord pack x x data = publications[k]? := by
  obtain ⟨hk, rfl⟩ := List.getElem?_eq_some_iff.mp hd
  have hk' : k < publications.length := h.length ▸ hk
  obtain ⟨hid, hs⟩ := List.Forall₂.get h hk' hk
  rw [List.getElem?_eq_getElem hk']
  exact ownRecord_eq_some.mpr ⟨rfl, hid,
    (hpack _ (List.getElem_mem hk')).deserializeFromMsgpck hs⟩

theorem arrivalMachine_step {s t : Arrivals ι} {e : Arrival ι}
    (h : (arrivalMachine pack x frames).step s e = some t) :
    (∃ i data rest, e = .arrive i ∧ s.pending i = data :: rest ∧
      t.pending = Function.update s.pending i rest ∧
      t.host.pib.getPeer x = (ownRecord pack x x data).or (s.host.pib.getPeer x)) ∨
    ((∀ i, e ≠ .arrive i) ∧ t.pending = s.pending ∧
      t.host.pib.getPeer x = s.host.pib.getPeer x) := by
  cases e with
  | arrive i =>
    simp only [arrivalMachine] at h
    split at h
    · cases h
    · rename_i data rest hp
      obtain ⟨⟨u, reply⟩, hr, rfl⟩ := Option.map_eq_some_iff.mp h
      exact .inl ⟨i, data, rest, rfl, hp, rfl, processControlMessage_getPeer hr x⟩
  | other hostId data =>
    simp only [arrivalMachine] at h
    split_ifs at h with hx
    obtain ⟨⟨u, reply⟩, hr, rfl⟩ := Option.map_eq_some_iff.mp h
    have hnone : ownRecord pack x hostId data = none := by
      rw [Option.eq_none_iff_forall_ne_some]
      intro peer hp
      exact hx (ownRecord_eq_some.mp hp).1
    refine .inr ⟨by simp, rfl, ?_⟩
    rw [processControlMessage_getPeer hr x, hnone, Option.none_or]

theorem InOrder.step {s t : Arrivals ι} {e : Arrival ι} (hs : InOrder frames s)
    (h : (arrivalMachine pack x frames).step s e = some t) : InOrder frames t := by
  intro j
  rcases arrivalMachine_step h with ⟨i, data, rest, _, hp, ht, _⟩ | ⟨_, ht, _⟩
  · rw [ht, Function.update_apply]
    split_ifs with hj
    · exact (List.suffix_cons data rest).trans (hp ▸ hs i)
    · exact hs j
  · exact ht ▸ hs j

theorem InOrder.path {s t : Arrivals ι} {trace : List (Transition (Arrivals ι) (Arrival ι))}
    (hs : InOrder frames s) (h : Path (arrivalMachine pack x frames) s trace t) :
    InOrder frames t ∧ ∀ a ∈ trace, InOrder frames a.source ∧ InOrder frames a.target :=
  h.preserves (fun _ _ _ hp hst => hp.step hst) hs

theorem frame_of_suffix {data : Bytes} {rest : List Bytes} (h : data :: rest <:+ frames) :
    frames[frames.length - (data :: rest).length]? = some data := by
  obtain ⟨before, rfl⟩ := h
  simp

theorem arrive_getPeer (hpack : ∀ peer ∈ publications, pack.ReadsBack (.peerInfo ⟨peer⟩))
    (hpub : Published pack x publications frames) {s t : Arrivals ι} {i : ι} (hs : InOrder frames s)
    (h : (arrivalMachine pack x frames).step s (.arrive i) = some t) :
    progress frames s i < publications.length ∧
      progress frames t i = progress frames s i + 1 ∧
      t.host.pib.getPeer x = publications[progress frames s i]? := by
  rcases arrivalMachine_step h with ⟨j, data, rest, hj, hp, ht, hrec⟩ | ⟨hne, _, _⟩
  · obtain rfl : i = j := by simpa using hj
    have hd := frame_of_suffix (hp ▸ hs i)
    rw [← hp] at hd
    have hlt : progress frames s i < frames.length := (List.getElem?_eq_some_iff.mp hd).1
    have hlen : (s.pending i).length = rest.length + 1 := by rw [hp, List.length_cons]
    have hle := (hs i).length_le
    refine ⟨hpub.length ▸ hlt, ?_, ?_⟩
    · simp only [progress, ht, Function.update_self] at hlt ⊢
      omega
    · have hown := hpub.ownRecord hpack hd
      change _ = publications[progress frames s i]? at hown
      rw [hrec, hown, List.getElem?_eq_getElem (hpub.length ▸ hlt), Option.some_or]
  · exact absurd rfl (hne i)

theorem progress_mono {s t : Arrivals ι} {e : Arrival ι}
    (h : (arrivalMachine pack x frames).step s e = some t) (i : ι) :
    progress frames s i ≤ progress frames t i := by
  rcases arrivalMachine_step h with ⟨j, data, rest, _, hp, ht, _⟩ | ⟨_, ht, _⟩
  · simp only [progress, ht, Function.update_apply]
    split_ifs with hij
    · rw [hij, hp, List.length_cons]
      omega
    · exact le_rfl
  · rw [progress, progress, ht]

/-- Along a path each connection is processed in the order of the publications. -/
theorem arrivals_ordered (hpack : ∀ peer ∈ publications, pack.ReadsBack (.peerInfo ⟨peer⟩))
    (hpub : Published pack x publications frames) {s t : Arrivals ι} {trace : List (Transition (Arrivals ι) (Arrival ι))}
    (h : Path (arrivalMachine pack x frames) s trace t) (hs : InOrder frames s) :
    (∀ a ∈ trace, ∀ i, a.label = .arrive i → progress frames a.source i < progress frames t i) ∧
    trace.Pairwise fun a b => ∀ i, a.label = .arrive i → b.label = .arrive i →
      progress frames a.source i < progress frames b.source i := by
  induction h with
  | nil => simp
  | @snoc t u trace e prior next ih =>
    obtain ⟨hlt, hpair⟩ := ih
    have ht := (hs.path prior).1
    constructor
    · intro a ha i hi
      rcases List.mem_append.mp ha with ha | ha
      · exact Nat.lt_of_lt_of_le (hlt a ha i hi) (progress_mono next i)
      · obtain rfl := List.mem_singleton.mp ha
        simp only at hi ⊢
        subst hi
        have := (arrive_getPeer hpack hpub ht next).2.1
        omega
    · refine List.pairwise_append.mpr ⟨hpair, List.pairwise_singleton _ _, ?_⟩
      intro a ha b hb i hai _
      obtain rfl := List.mem_singleton.mp hb
      exact hlt a ha i hai

/-- The record of `x` is the newest publication that some connection has come to. -/
theorem record_of_progress (hpack : ∀ peer ∈ publications, pack.ReadsBack (.peerInfo ⟨peer⟩))
    (hpub : Published pack x publications frames) {s t : Arrivals ι} {trace : List (Transition (Arrivals ι) (Arrival ι))}
    (h : Path (arrivalMachine pack x frames) s trace t) (hs : ∀ i, s.pending i = frames) :
    ((∀ i, t.pending i = frames) ∧ t.host.pib.getPeer x = s.host.pib.getPeer x) ∨
    ∃ i, 0 < progress frames t i ∧
      t.host.pib.getPeer x = publications[progress frames t i - 1]? := by
  -- The connection in the second case is the one whose message was processed last.
  induction h with
  | nil => exact .inl ⟨hs, rfl⟩
  | @snoc t u trace e prior next ih =>
    have ht := ((InOrder.of_start hs).path prior).1
    rcases arrivalMachine_step next with ⟨i, _, _, rfl, _, _, _⟩ | ⟨_, hp, hrec⟩
    · obtain ⟨_, hprog, hrec⟩ := arrive_getPeer hpack hpub ht next
      exact .inr ⟨i, by omega, by rw [hrec, hprog, Nat.add_sub_cancel]⟩
    · have hprog : progress frames u = progress frames t := by
        funext i
        rw [progress, progress, hp]
      rw [hp, hrec, hprog]
      exact ih

/-- Publications over several connections: every processed message writes its publication, the
messages of one connection in the order of the publications, and after all messages the record
is the last publication. -/
theorem publications_in_order [Nonempty ι]
    (hpack : ∀ peer ∈ publications, pack.ReadsBack (.peerInfo ⟨peer⟩))
    (hpub : Published pack x publications frames)
    (r : Run (arrivalMachine (ι := ι) pack x frames)) :
    (∀ a ∈ r.transitions, ∀ i, a.label = .arrive i →
      a.target.host.pib.getPeer x = publications[progress frames a.source i]?) ∧
    (∀ a ∈ r.transitions, (∀ i, a.label ≠ .arrive i) →
      a.target.host.pib.getPeer x = a.source.host.pib.getPeer x) ∧
    (r.transitions.Pairwise fun a b => ∀ i, a.label = .arrive i → b.label = .arrive i →
      progress frames a.source i < progress frames b.source i) ∧
    ((∀ i, r.final.pending i = []) → r.final.host.pib.getPeer x =
      publications.getLast?.or (r.start.host.pib.getPeer x)) := by
  have hstart : InOrder frames r.start := .of_start r.starts
  have hall := (hstart.path r.path).2
  refine ⟨fun a ha i hi => ?_, fun a ha hne => ?_,
    (arrivals_ordered hpack hpub r.path hstart).2, fun hdone => ?_⟩
  · have hstep := r.path.step_of_mem ha
    rw [hi] at hstep
    exact (arrive_getPeer hpack hpub (hall a ha).1 hstep).2.2
  · rcases arrivalMachine_step (r.path.step_of_mem ha) with ⟨i, _, _, hi, _⟩ | ⟨_, _, hrec⟩
    · exact absurd hi (hne i)
    · exact hrec
  · rcases record_of_progress hpack hpub r.path r.starts with ⟨hp, hrec⟩ | ⟨i, hpos, hrec⟩
    · obtain ⟨i⟩ := ‹Nonempty ι›
      have hn : publications = [] := by
        rw [← List.length_eq_zero_iff, hpub.length, ← hp i, hdone i, List.length_nil]
      rw [hrec, hn, List.getLast?_nil, Option.none_or]
    · have hlen : progress frames r.final i = publications.length := by
        rw [progress, hdone i, List.length_nil, Nat.sub_zero, hpub.length]
      rw [hrec, hlen, ← List.getLast?_eq_getElem?]
      cases hl : publications.getLast? with
      | none => simp [List.getLast?_eq_none_iff.mp hl] at hlen; omega
      | some _ => rfl

section Overtaking

def firstHost : Identifier := ⟨Vector.replicate 32 1⟩
def secondHost : Identifier := ⟨Vector.replicate 32 2⟩

def twoPublications : List (Message × Bytes) :=
  [writePeerInfo firstHost [], writePeerInfo firstHost [secondHost]]

def twoPack : MessagePack := .ofTable twoPublications

theorem twoPack_readsBack (message : Message) : twoPack.ReadsBack message :=
  MessagePack.ofTable_readsBack (by decide) message

theorem twoPublications_published :
    Published twoPack firstHost [⟨firstHost, [], []⟩, ⟨firstHost, [], [secondHost]⟩]
      (twoPublications.map Prod.snd) :=
  .cons (by decide) (.cons (by decide) .nil)

/-- With two connections the record goes from the second publication back to the first. -/
theorem publications_overtaken :
    ∃ r : Run (arrivalMachine (ι := Bool) twoPack firstHost (twoPublications.map Prod.snd)),
      ∃ a ∈ r.transitions,
        a.source.host.pib.getPeer firstHost = some ⟨firstHost, [], [secondHost]⟩ ∧
        a.target.host.pib.getPeer firstHost = some ⟨firstHost, [], []⟩ := by
  obtain ⟨r, _, a, ha, _, hp, hq⟩ := exec_visits
    (M := arrivalMachine (ι := Bool) twoPack firstHost (twoPublications.map Prod.snd))
    (s := ⟨⟨secondHost, .new, [], 7⟩, fun _ => twoPublications.map Prod.snd⟩)
    (fun _ => rfl) [.arrive false, .arrive false] (.arrive true)
    (p := fun s => s.host.pib.getPeer firstHost = some ⟨firstHost, [], [secondHost]⟩)
    (q := fun s => s.host.pib.getPeer firstHost = some ⟨firstHost, [], []⟩) (by decide)
  exact ⟨r, a, ha, by simpa using hp, by simpa using hq⟩

/-- After both publications arrived on both connections, the record is the second one. -/
theorem publications_in_order_two :
    ∃ r : Run (arrivalMachine (ι := Bool) twoPack firstHost (twoPublications.map Prod.snd)),
      r.final.host.pib.getPeer firstHost = some ⟨firstHost, [], [secondHost]⟩ := by
  let M := arrivalMachine (ι := Bool) twoPack firstHost (twoPublications.map Prod.snd)
  obtain ⟨t, ⟨r, rfl⟩, hr⟩ := exec_reachable (M := M)
    (s := ⟨⟨secondHost, .new, [], 7⟩, fun _ => twoPublications.map Prod.snd⟩) (fun _ => rfl)
    [.arrive false, .arrive false, .arrive true, .arrive true]
    (p := fun s => (s.pending false).isEmpty && (s.pending true).isEmpty) (by decide)
  have hdone : ∀ i, r.final.pending i = [] := by
    intro i
    cases i <;> simp_all
  exact ⟨r, ((publications_in_order (fun _ _ => twoPack_readsBack _) twoPublications_published
    r).2.2.2 hdone).trans rfl⟩

end Overtaking

end Uip.NetworkState
