import Uip.WorldInvariant

/-! Where a frame of a client may be, and what it looks like there. -/
namespace Uip
open TransitionSystem ItemQueues Transport

variable {w : Wiring} {pack : MessagePack}

/-- An end is the far one of a connection of `h` that bears the identifier `dest`. -/
def Wiring.Leads (w : Wiring) (h dest : Identifier) (e' : ℕ) : Prop :=
  ∃ e, w.peer e = e' ∧ w.host e = h ∧ w.remoteId e = dest

/-- The connections of two daemons bear the right identifiers on both sides. -/
structure Wiring.RightIdentities (w : Wiring) (A B : Identifier) : Prop where
  there : ∀ e, w.host e = A → w.remoteId e = B →
    w.host (w.peer e) = B ∧ w.remoteId (w.peer e) = A
  back : ∀ e, w.host e = B → w.remoteId e = A →
    w.host (w.peer e) = A ∧ w.remoteId (w.peer e) = B

theorem Wiring.RightIdentities.symm {A B : Identifier} (h : w.RightIdentities A B) :
    w.RightIdentities B A := ⟨h.back, h.there⟩

theorem Wiring.Leads.right {A B : Identifier} (right : w.RightIdentities A B) {e : ℕ}
    (h : w.Leads A B e) : w.host e = B ∧ w.remoteId e = A := by
  obtain ⟨e', rfl, hh, hr⟩ := h
  exact right.there e' hh hr

namespace World

/-- The form that the tuple `sent` of a client of `h` has at a place. -/
def Routed (w : Wiring) (s : World) (h : Identifier) (sent : Delivery) :
    (x : Place) → x.Content → Prop
  | .inbox .., _ => False
  | .unixRead h' _, tuple | .unixSource h', tuple | .unixToNetwork h', tuple =>
    h' = h ∧ tuple = sent
  | .sink e, frame | .writing e, frame =>
    w.host e = h ∧ w.remoteId e = sent.hostId ∧
      frame = .data sent.srcPort sent.dstPort sent.data
  | .flight e, record =>
    w.Leads h sent.hostId e ∧
      record = Codec.encoding (.data sent.srcPort sent.dstPort sent.data)
  | .decoded e, frame =>
    w.Leads h sent.hostId e ∧ frame = .data sent.srcPort sent.dstPort sent.data
  | .reading e, tuple =>
    w.Leads h sent.hostId e ∧ tuple = { sent with hostId := w.remoteId e }
  | .deliverFrame h' _, tuple | .delivering h' _, tuple | .networkSource h', tuple
  | .networkToUnix h', tuple =>
    ∃ e, w.Leads h sent.hostId e ∧ w.host e = h' ∧ tuple = { sent with hostId := w.remoteId e }
  | .replying h' _, _ => ∃ e, w.Leads h sent.hostId e ∧ w.host e = h' ∧ sent.isControl
  | .handing h', found =>
    ∃ e, w.Leads h sent.hostId e ∧ w.host e = h' ∧
      found.2 = .data (w.remoteId e) sent.srcPort sent.data ∧
      (s.unix h').bound found.1 = some sent.dstPort
  | .channel h' k, frame | .stream h' k, frame =>
    ∃ e, w.Leads h sent.hostId e ∧ w.host e = h' ∧
      frame = .data (w.remoteId e) sent.srcPort sent.data ∧
      (s.unix h').bound k = some sent.dstPort

def Unread (s : World) (h : Identifier) (k i : ℕ) : (x : Place) → x.Content → Prop
  | .inbox h' k', frame => h' = h ∧ k' = k ∧ (s.written h k)[i]? = some frame
  | _, _ => False

/-- The tuple that the daemon makes of the frame `i` of a client. -/
def Sends (s : World) (h : Identifier) (k i : ℕ) (sent : Delivery) : Prop :=
  (s.written h k)[i]? = some (.data sent.hostId sent.dstPort sent.data) ∧
    (s.unix h).bound k = some sent.srcPort

/-- Whatever bears a number of a client is the frame that the client sent. -/
def Traced (w : Wiring) (s : World) (x : Place) (n : Number) (c : x.Content) : Prop :=
  ∀ h k i, n = .client h k i →
    s.Unread h k i x c ∨ ∃ sent, s.Sends h k i sent ∧ s.Routed w h sent x c

variable {s t : World} {x y : Place} {c : x.Content} {c' : y.Content}

theorem Sends.unique {h : Identifier} {k i : ℕ} {a b : Delivery} (ha : s.Sends h k i a)
    (hb : s.Sends h k i b) : a = b := by
  have hframe := Option.some.inj (ha.1.symm.trans hb.1)
  have hport := Option.some.inj (ha.2.symm.trans hb.2)
  obtain ⟨hhost, hdst, hdata⟩ := Unix.Frame.data.inj hframe
  cases a
  cases b
  simp_all

theorem Traced.mono (hext : Extends s t) {n : Number} (hc : s.Traced w x n c) :
    t.Traced w x n c := by
  intro h k i hn
  rcases hc h k i hn with hunread | ⟨sent, hsent, hrouted⟩
  · refine .inl ?_
    cases x with
    | inbox h' k' =>
      obtain ⟨rfl, rfl, hw⟩ := hunread
      exact ⟨rfl, rfl, hext.written _ _ _ _ hw⟩
    | _ => exact hunread
  · refine .inr ⟨sent, ⟨hext.written _ _ _ _ hsent.1, hext.bound hsent.2⟩, ?_⟩
    cases x with
    | handing h' | channel h' k' | stream h' k' =>
      obtain ⟨e, hl, hh, hf, hb⟩ := hrouted
      exact ⟨e, hl, hh, hf, hext.bound hb⟩
    | _ => exact hrouted

theorem Routed.hop (hv : s.Valid) {h : Identifier} {sent : Delivery}
    (hc : s.Routed w h sent x c) (hop : s.Hop w x c y c') : s.Routed w h sent y c' := by
  cases hop with
  | inbox => exact hc.elim
  | writing e frame fits =>
    obtain ⟨hh, hr, rfl⟩ := hc
    exact ⟨⟨e, rfl, hh, hr⟩, rfl⟩
  | decoded e srcPort dstPort data =>
    obtain ⟨hl, hf⟩ := hc
    cases hf
    exact ⟨hl, rfl⟩
  | reading e tuple => exact ⟨e, hc.1, rfl, hc.2⟩
  | networkToUnix h' k tuple registered =>
    obtain ⟨e, hl, hh, rfl⟩ := hc
    exact ⟨e, hl, hh, rfl, (hv h').registered _ _ registered⟩
  | _ => exact hc

/-- A frame that is read is sent from the port of its client. -/
theorem Unread.hop {h : Identifier} {k i : ℕ} (hc : s.Unread h k i x c)
    (hop : s.Hop w x c y c') : ∃ sent, s.Sends h k i sent ∧ s.Routed w h sent y c' := by
  cases hop with
  | inbox h' k' srcPort hostId dstPort data reads =>
    obtain ⟨rfl, rfl, hw⟩ := hc
    have hbound := UnixState.bound_of_clients reads
    exact ⟨⟨hostId, srcPort, dstPort, data⟩, ⟨hw, hbound⟩, rfl, rfl⟩
  | _ => exact hc.elim

theorem Traced.hop (hv : s.Valid) {n : Number} (hc : s.Traced w x n c)
    (hop : s.Hop w x c y c') : s.Traced w y n c' := by
  intro h k i hn
  rcases hc h k i hn with hunread | ⟨sent, hsent, hrouted⟩
  · exact .inr (hunread.hop hop)
  · exact .inr ⟨sent, hsent, hrouted.hop hv hop⟩

theorem Traced.go {n : Number} (hc : s.Traced w x n c)
    (read : ∀ h k i, ¬ s.Unread h k i x c)
    (go : ∀ h sent, s.Routed w h sent x c → s.Routed w h sent y c') : s.Traced w y n c' := by
  intro h k i hn
  rcases hc h k i hn with hunread | ⟨sent, hsent, hrouted⟩
  · exact absurd hunread (read h k i)
  · exact .inr ⟨sent, hsent, go h sent hrouted⟩

/-- What holds of a world after any run. -/
structure Sound (w : Wiring) (s : World) : Prop where
  framed : s.Framed
  valid : s.Valid
  numbered : s.Numbered
  traced : All s.queue (s.Traced w)

theorem Sound.new (network : Identifier → NetworkState) : (World.new network).Sound w where
  framed := .new network
  valid _ := .new
  numbered := .new network
  traced x item hi := by simp [World.new, empty] at hi

theorem Sound.traced_step (hs : s.Sound w) {e : WorldEvent} (step : Step w pack s e t) :
    All t.queue (t.Traced w) := by
  have hext := step.extends hs.valid
  have hold : All s.queue (t.Traced w) := fun x item hi => (hs.traced x item hi).mono hext
  have hdaemon : ∀ {y : Place} {e i : ℕ} {c : y.Content}, t.Traced w y (.daemon e i) c :=
    fun h k i hn => by cases hn
  cases step with
  | connect | accept | endOfStream => exact hold
  | write h k frame =>
    refine hold.push ?_
    rintro h' k' i hn
    cases hn
    exact .inl ⟨rfl, rfl, by simp⟩
  | firstFrame | drop | stop | process | lose => exact hold.erase _ _
  | pass x n c y c' found hop =>
    exact (hold.erase x n).push (((hs.traced.of_find found).hop hs.valid hop).mono hext)
  | send e n tuple found remote =>
    refine (hold.erase _ n).push (((hs.traced.of_find found).go (fun _ _ _ h => h) ?_).mono hext)
    rintro h sent ⟨hh, rfl⟩
    exact ⟨hh, remote, rfl⟩
  | arrive e n f bounded found =>
    refine (hold.erase _ n).push (((hs.traced.of_find found).go (fun _ _ _ h => h) ?_).mono hext)
    rintro h sent ⟨hl, hf⟩
    exact ⟨hl, (Codec.eq_of_encoding_eq bounded hf.symm).symm⟩
  | answer h j n tuple network reply found control result =>
    refine (hold.erase _ n).push (((hs.traced.of_find found).go (fun _ _ _ h => h) ?_).mono hext)
    rintro h' sent ⟨e, hl, hh, rfl⟩
    exact ⟨e, hl, hh, control⟩
  | ping | control => exact hold.push hdaemon
  | pong | reply => exact (hold.erase _ _).push hdaemon

theorem Sound.step (hs : s.Sound w) {e : WorldEvent} (step : Step w pack s e t) : t.Sound w :=
  ⟨hs.framed.step step, hs.valid.step step, hs.numbered.step hs.valid step, hs.traced_step step⟩

theorem Sound.step_of_next (hs : s.Sound w) {e : WorldEvent}
    (step : (worldMachine w pack).step s e = some t) : Step w pack s e t := by
  obtain ⟨he, rfl⟩ := guarded_step.mp step
  exact next_step hs.framed he

theorem Sound.next (hs : s.Sound w) {e : WorldEvent}
    (step : (worldMachine w pack).step s e = some t) : t.Sound w :=
  hs.step (hs.step_of_next step)

theorem Sound.of_init (h : (worldMachine w pack).init s) : s.Sound w := by
  obtain ⟨network, rfl⟩ := h
  exact .new network

theorem Sound.of_reachable (h : Reachable (worldMachine w pack) s) : s.Sound w :=
  h.induct (fun _ hi => .of_init hi) fun _ _ _ hs step => hs.next step

end World

end Uip
