import Uip.WorldOrder

/-! Where no task can go on, everything has arrived but what waits for a connection that is not
there, for a client that does not speak or for a message that cannot be processed. -/
namespace Uip
open TransitionSystem ItemQueues Transport

variable {w : Wiring} {pack : MessagePack}

/-- The steps of the tasks. The others are made by the clients, by timers and by the network, or
put a message of the daemon's own into a sink. -/
def WorldEvent.internal : WorldEvent → Bool
  | .accept .. | .firstFrame .. | .advance .. | .send .. | .arrive .. | .pong .. | .process ..
  | .reply .. => true
  | _ => false

/-- The steps that the tasks can make by themselves. The write task of a `stalled` client awaits
room in the socket for the last frame that it has put on the stream, and takes no other. -/
def WorldEvent.goesOn (stalled : Identifier → ℕ → Bool) : WorldEvent → Bool
  | .advance (.channel h k) _ => !stalled h k
  | e => e.internal

namespace World

variable {stalled : Identifier → ℕ → Bool}

def AtRest (w : Wiring) (pack : MessagePack) (stalled : Identifier → ℕ → Bool) (s : World) :
    Prop :=
  ∀ e : WorldEvent, e.goesOn stalled = true → ¬ s.enabled w pack e

/-- What a task has in hand can be sent or processed. -/
structure Served (w : Wiring) (pack : MessagePack) (s : World) : Prop where
  connected : ∀ h n tuple, s.content (.unixToNetwork h) n = some tuple →
    ∃ e, w.host e = h ∧ w.remoteId e = tuple.hostId
  answered : ∀ h j n reply, s.content (.replying h j) n = some reply →
    (NetworkState.sendPeerInfo pack reply.peer).isSome = true ∧
      ∃ e, w.host e = h ∧ w.remoteId e = reply.host
  processed : ∀ h j n tuple, s.content (.delivering h j) n = some tuple → tuple.isControl →
    ((s.network h).processControlMessage pack tuple.hostId tuple.data).isSome = true

/-- What the items of a place wait for. A client has received them, does not take them, or has
sent them while its first frame is not awaited and its input not read; or the place they go to
is full, or it must be empty first, and what is there waits itself. -/
inductive Waits (w : Wiring) (stalled : Identifier → ℕ → Bool) (s : World) : Place → Prop
  | stream (h : Identifier) (k : ℕ) : Waits w stalled s (.stream h k)
  | channel (h : Identifier) (k : ℕ) (stalls : stalled h k = true) : Waits w stalled s (.channel h k)
  | inbox (h : Identifier) (k : ℕ) (idle : (s.unix h).handling ≠ some k)
      (unread : ∀ srcPort, (s.unix h).clients k ≠ .bound srcPort true) :
      Waits w stalled s (.inbox h k)
  | full {x y : Place} {n : Number} {c : y.Content} (first : s.first x = some n)
      (passes : s.effect w x n = .pass y c) (full : s.room y = false)
      (next : Waits w stalled s y) : Waits w stalled s x
  | networkSource (h : Identifier) (holds : s.queue (.handing h) ≠ [])
      (next : Waits w stalled s (.handing h)) : Waits w stalled s (.networkSource h)
  | decoded (e : ℕ) (holds : s.queue (.reading e) ≠ []) (next : Waits w stalled s (.reading e)) :
      Waits w stalled s (.decoded e)
  | flight {e : ℕ} {x : Place} (handled : x = .decoded e ∨ x = .reading e)
      (holds : s.queue x ≠ []) (next : Waits w stalled s x) : Waits w stalled s (.flight e)

/-- Only what waits is left, and clients are left to accept only where the accept loop awaits the
first frame of another. -/
structure Drained (w : Wiring) (stalled : Identifier → ℕ → Bool) (s : World) : Prop where
  waits : ∀ x, s.queue x ≠ [] → s.Waits w stalled x
  accepts : ∀ h, (s.unix h).backlog ≠ [] → (s.unix h).handling ≠ none

variable {s : World}

theorem exists_first {x : Place} (h : s.queue x ≠ []) :
    ∃ n c, s.first x = some n ∧ s.content x n = some c := by
  cases hq : s.queue x with
  | nil => exact absurd hq h
  | cons item rest =>
    have hfirst : s.first x = some item.number := by simp [first, numbers, hq]
    obtain ⟨c, hc⟩ := content_of_first hfirst
    exact ⟨item.number, c, hfirst, hc⟩

theorem room_of_nil {y : Place} (h : s.queue y = []) : s.room y = true := by
  cases y <;> simp [room, Place.capacity, h]

theorem hop_of_effect {x y : Place} {n : Number} {c : x.Content} {c' : y.Content}
    (found : s.content x n = some c) (passes : s.effect w x n = .pass y c') :
    s.Hop w x c y c' :=
  .of_stage ((effect_eq found).symm.trans passes)

namespace AtRest

variable (rest : s.AtRest w pack stalled)

include rest

/-- The first item of a queue has nothing to do, but for the channel of a stalled client. -/
theorem not_ready {x : Place} (free : ∀ h k, x = .channel h k → stalled h k = false) {n : Number}
    (hfirst : s.first x = some n) : s.ready (s.effect w x n) = false := by
  refine Bool.eq_false_iff.mpr fun hready => rest (.advance x n) ?_ ⟨hfirst, hready⟩
  cases x with
  | channel h k => simp [WorldEvent.goesOn, free h k rfl]
  | _ => rfl

theorem nil_of_ready {x : Place} (free : ∀ h k, x = .channel h k → stalled h k = false)
    (ready : ∀ c, s.ready (s.stage w x c) = true) : s.queue x = [] := by
  by_contra hne
  obtain ⟨n, c, hfirst, hc⟩ := exists_first hne
  have hnot := rest.not_ready free hfirst
  rw [effect_eq hc, ready c] at hnot
  cases hnot

/-- What would pass to a place waits for it, where what is there waits. -/
theorem waits_of_pass {x y : Place} (free : ∀ h k, x ≠ .channel h k) {n : Number}
    {c : x.Content} {c' : y.Content} (hfirst : s.first x = some n) (found : s.content x n = some c)
    (passes : s.stage w x c = .pass y c') (next : s.queue y ≠ [] → s.Waits w stalled y) :
    s.Waits w stalled x := by
  have heffect : s.effect w x n = .pass y c' := (effect_eq found).trans passes
  have hfull : s.room y = false := by
    have hnot := rest.not_ready (fun h k hx => absurd hx (free h k)) hfirst
    rwa [heffect] at hnot
  refine .full hfirst heffect hfull (next fun hnil => ?_)
  rw [room_of_nil hnil] at hfull
  cases hfull

theorem writing (e : ℕ) : s.queue (.writing e) = [] := by
  apply rest.nil_of_ready (by simp)
  intro frame
  simp only [stage]
  split
  · split_ifs <;> simp [ready, room, Place.capacity]
  · rfl

theorem sink (e : ℕ) : s.queue (.sink e) = [] :=
  rest.nil_of_ready (by simp) fun _ => room_of_nil (rest.writing e)

theorem replying (served : s.Served w pack) (h : Identifier) (j : ℕ) :
    s.queue (.replying h j) = [] := by
  by_contra hne
  obtain ⟨n, reply, hfirst, hc⟩ := exists_first hne
  obtain ⟨hpacked, e, hhost, hremote⟩ := served.answered h j n reply hc
  refine rest (.reply h j e (s.sent e) n) rfl
    ⟨rfl, room_of_nil (rest.sink e), hfirst, hhost, ?_⟩
  rw [hc]
  exact decide_eq_true ⟨hremote, hpacked⟩

theorem unixToNetwork (served : s.Served w pack) (h : Identifier) :
    s.queue (.unixToNetwork h) = [] := by
  by_contra hne
  obtain ⟨n, tuple, hfirst, hc⟩ := exists_first hne
  obtain ⟨e, hhost, hremote⟩ := served.connected h n tuple hc
  refine rest (.send h e n) rfl ⟨hfirst, hhost, room_of_nil (rest.sink e), ?_⟩
  rw [hc]
  exact decide_eq_true hremote

theorem unixSource (served : s.Served w pack) (h : Identifier) :
    s.queue (.unixSource h) = [] :=
  rest.nil_of_ready (by simp) fun _ => room_of_nil (rest.unixToNetwork served h)

theorem unixRead (served : s.Served w pack) (h : Identifier) (k : ℕ) :
    s.queue (.unixRead h k) = [] :=
  rest.nil_of_ready (by simp) fun _ => room_of_nil (rest.unixSource served h)

theorem inbox (served : s.Served w pack) {h : Identifier} {k : ℕ} {srcPort : UInt16}
    (reads : (s.unix h).clients k = .bound srcPort true) : s.queue (.inbox h k) = [] := by
  apply rest.nil_of_ready (by simp)
  intro frame
  simp only [stage, reads]
  cases frame with
  | data hostId dstPort data => exact room_of_nil (rest.unixRead served h k)
  | bind | error => rfl

theorem handling {h : Identifier} {k : ℕ} (handled : (s.unix h).handling = some k) :
    s.queue (.inbox h k) = [] := by
  by_contra hne
  obtain ⟨n, frame, hfirst, -⟩ := exists_first hne
  exact rest (.firstFrame h k n) rfl ⟨handled, hfirst⟩

theorem backlog {h : Identifier} (waits : (s.unix h).backlog ≠ []) :
    (s.unix h).handling ≠ none := by
  intro hhandling
  obtain ⟨k, others, hbacklog⟩ := List.exists_cons_of_ne_nil waits
  exact rest (.accept h k) rfl ⟨hhandling, by rw [hbacklog]; rfl⟩

theorem channel {h : Identifier} {k : ℕ} (hne : s.queue (.channel h k) ≠ []) :
    s.Waits w stalled (.channel h k) := by
  refine .channel h k (Bool.of_not_eq_false fun free => hne ?_)
  refine rest.nil_of_ready (fun h' k' heq => ?_) fun _ => by simp [stage, ready, room, Place.capacity]
  obtain ⟨rfl, rfl⟩ := Place.channel.inj heq
  exact free

theorem handing {h : Identifier} (hne : s.queue (.handing h) ≠ []) :
    s.Waits w stalled (.handing h) := by
  obtain ⟨n, found, hfirst, hc⟩ := exists_first hne
  exact rest.waits_of_pass (by simp) hfirst hc rfl rest.channel

theorem networkToUnix {h : Identifier} (hne : s.queue (.networkToUnix h) ≠ []) :
    s.Waits w stalled (.networkToUnix h) := by
  obtain ⟨n, tuple, hfirst, hc⟩ := exists_first hne
  cases hfound : (s.unix h).deliverFrame tuple.hostId tuple.srcPort tuple.dstPort tuple.data with
  | some found =>
    have hpass : s.stage w (.networkToUnix h) tuple = .pass (.handing h) found := by
      simp only [stage, hfound]
    exact rest.waits_of_pass (by simp) hfirst hc hpass rest.handing
  | none =>
    have hnot := rest.not_ready (by simp) hfirst
    simp [effect_eq hc, stage, hfound, ready] at hnot

theorem networkSource {h : Identifier} (hne : s.queue (.networkSource h) ≠ []) :
    s.Waits w stalled (.networkSource h) := by
  by_cases hhanding : s.queue (.handing h) = []
  · obtain ⟨n, tuple, hfirst, hc⟩ := exists_first hne
    have hpass : s.stage w (.networkSource h) tuple = .pass (.networkToUnix h) tuple := by
      simp [stage, hhanding]
    exact rest.waits_of_pass (by simp) hfirst hc hpass rest.networkToUnix
  · exact .networkSource h hhanding (rest.handing hhanding)

theorem delivering (served : s.Served w pack) {h : Identifier} {j : ℕ}
    (hne : s.queue (.delivering h j) ≠ []) : s.Waits w stalled (.delivering h j) := by
  obtain ⟨n, tuple, hfirst, hc⟩ := exists_first hne
  by_cases hcontrol : tuple.isControl
  · refine absurd ⟨hfirst, room_of_nil (rest.replying served h j), ?_⟩
      (rest (.process h j n) rfl)
    rw [hc]
    exact decide_eq_true ⟨hcontrol, served.processed h j n tuple hc hcontrol⟩
  · have hpass : s.stage w (.delivering h j) tuple = .pass (.networkSource h) tuple := by
      simp only [stage, hcontrol, if_false]
    exact rest.waits_of_pass (by simp) hfirst hc hpass rest.networkSource

theorem deliverFrame (served : s.Served w pack) {h : Identifier} {j : ℕ}
    (hne : s.queue (.deliverFrame h j) ≠ []) : s.Waits w stalled (.deliverFrame h j) := by
  obtain ⟨n, tuple, hfirst, hc⟩ := exists_first hne
  have hpass : s.stage w (.deliverFrame h j) tuple = .pass (.delivering h j) tuple := by
    simp [stage, rest.replying served h j]
  exact rest.waits_of_pass (by simp) hfirst hc hpass (rest.delivering served)

theorem reading (served : s.Served w pack) {e : ℕ} (hne : s.queue (.reading e) ≠ []) :
    s.Waits w stalled (.reading e) := by
  obtain ⟨n, tuple, hfirst, hc⟩ := exists_first hne
  exact rest.waits_of_pass (by simp) hfirst hc rfl (rest.deliverFrame served)

theorem decoded (served : s.Served w pack) {e : ℕ} (hne : s.queue (.decoded e) ≠ []) :
    s.Waits w stalled (.decoded e) := by
  by_cases hreading : s.queue (.reading e) = []
  · obtain ⟨n, frame, hfirst, hc⟩ := exists_first hne
    cases frame with
    | data srcPort dstPort data =>
      have hpass : s.stage w (.decoded e) (.data srcPort dstPort data) =
          .pass (.reading e) ⟨w.remoteId e, srcPort, dstPort, data⟩ := by simp [stage, hreading]
      exact rest.waits_of_pass (by simp) hfirst hc hpass fun hne' => absurd hreading hne'
    | pong =>
      have hnot := rest.not_ready (by simp) hfirst
      simp [effect_eq hc, stage, hreading, ready] at hnot
    | ping =>
      refine absurd ⟨rfl, room_of_nil (rest.sink e), hfirst, by simp [hreading], ?_⟩
        (rest (.pong e (s.sent e) n) rfl)
      rw [hc]
      rfl
  · exact .decoded e hreading (rest.reading served hreading)

theorem flight (served : s.Served w pack) {e : ℕ} (hne : s.queue (.flight e) ≠ []) :
    s.Waits w stalled (.flight e) := by
  by_cases hdecoded : s.queue (.decoded e) = []
  · by_cases hreading : s.queue (.reading e) = []
    · obtain ⟨n, record, -, hc⟩ := exists_first hne
      exact absurd ⟨by simp [hc], by simp [hdecoded], by simp [hreading]⟩ (rest (.arrive e n) rfl)
    · exact .flight (.inr rfl) hreading (rest.reading served hreading)
  · exact .flight (.inl rfl) hdecoded (rest.decoded served hdecoded)

theorem drained (served : s.Served w pack) : s.Drained w stalled := by
  constructor
  · intro x hx
    cases x with
    | stream h k => exact .stream h k
    | inbox h k =>
      refine .inbox h k (fun handled => hx (rest.handling handled)) fun srcPort reads => ?_
      exact hx (rest.inbox served reads)
    | unixRead h k => exact absurd (rest.unixRead served h k) hx
    | unixSource h => exact absurd (rest.unixSource served h) hx
    | unixToNetwork h => exact absurd (rest.unixToNetwork served h) hx
    | sink e => exact absurd (rest.sink e) hx
    | writing e => exact absurd (rest.writing e) hx
    | replying h j => exact absurd (rest.replying served h j) hx
    | flight e => exact rest.flight served hx
    | decoded e => exact rest.decoded served hx
    | reading e => exact rest.reading served hx
    | deliverFrame h j => exact rest.deliverFrame served hx
    | delivering h j => exact rest.delivering served hx
    | networkSource h => exact rest.networkSource hx
    | networkToUnix h => exact rest.networkToUnix hx
    | handing h => exact rest.handing hx
    | channel h k => exact rest.channel hx
  · exact fun h waits => rest.backlog waits

end AtRest

namespace Waits

/-- Who waits on the way from a client to a connection, or for an answer, waits for the network. -/
theorem not_outgoing {x : Place} (waits : s.Waits w stalled x) : match x with
    | .unixRead .. | .unixSource _ | .unixToNetwork _ | .sink _ | .writing _ | .replying .. => False
    | _ => True := by
  induction waits with
  | @full x y n c first passes full next ih =>
    obtain ⟨c', found⟩ := content_of_first first
    cases hop_of_effect found passes with
    | unixRead | unixSource | sink => exact ih
    | writing => cases full
    | _ => trivial
  | stream | channel | inbox | networkSource | decoded | flight => trivial

/-- What comes from the network waits for a stalled client of its daemon. -/
theorem exists_stalled {x : Place} (waits : s.Waits w stalled x) : match x with
    | .channel h _ | .handing h | .networkToUnix h | .networkSource h | .delivering h _
    | .deliverFrame h _ => ∃ k, stalled h k = true
    | .reading e | .decoded e | .flight e => ∃ k, stalled (w.host e) k = true
    | _ => True := by
  induction waits with
  | channel h k stalls => exact ⟨k, stalls⟩
  | @full x y n c first passes full next ih =>
    obtain ⟨c', found⟩ := content_of_first first
    cases hop_of_effect found passes with
    | channel => cases full
    | unixRead | unixSource | sink | writing | inbox => trivial
    | _ => exact ih
  | networkSource | decoded => assumption
  | flight handled holds next ih =>
    rcases handled with rfl | rfl
    · exact ih
    · exact ih
  | stream | inbox => trivial

end Waits

namespace Drained

theorem waits_of_first (drained : s.Drained w stalled) {x : Place} {n : Number}
    (hfirst : s.first x = some n) : s.Waits w stalled x := by
  refine drained.waits x fun hnil => ?_
  simp [first, numbers, hnil] at hfirst

theorem waits_of_content (drained : s.Drained w stalled) {x : Place} {n : Number} {c : x.Content}
    (hc : s.content x n = some c) : s.Waits w stalled x :=
  drained.waits x (List.ne_nil_of_mem (find_eq_some hc))

theorem atRest (drained : s.Drained w stalled) (pack : MessagePack) : s.AtRest w pack stalled := by
  rintro e goes he
  cases e with
  | accept h k =>
    refine drained.accepts h (fun hnil => ?_) he.1
    simp [enabled, hnil] at he
  | firstFrame h k n =>
    cases drained.waits_of_first he.2 with
    | inbox _ _ idle => exact idle he.1
    | full first passes full next =>
      obtain ⟨c, found⟩ := content_of_first first
      cases hop_of_effect found passes with
      | inbox => exact next.not_outgoing
  | advance x n =>
    obtain ⟨c, found⟩ := content_of_first he.1
    have hready := he.2
    cases drained.waits_of_first he.1 with
    | stream h k => simp [effect_eq found, stage, ready] at hready
    | channel h k stalls => simp [WorldEvent.goesOn, stalls] at goes
    | inbox h k idle unread =>
      have hstuck : s.stage w (.inbox h k) c = .stuck := by simp [stage]
      simp [effect_eq found, hstuck, ready] at hready
    | full first passes full next =>
      obtain rfl := Option.some.inj (first.symm.trans he.1)
      rw [passes, ready, full] at hready
      cases hready
    | networkSource h holds => simp [effect_eq found, stage, holds, ready] at hready
    | decoded e holds => simp [effect_eq found, stage, holds, ready] at hready
    | flight => simp [effect_eq found, stage, ready] at hready
  | send h e n => exact (drained.waits_of_first he.1).not_outgoing
  | arrive e n =>
    obtain ⟨record, hc⟩ := Option.isSome_iff_exists.mp he.1
    cases drained.waits_of_content hc with
    | full first passes =>
      obtain ⟨c, found⟩ := content_of_first first
      cases hop_of_effect found passes
    | flight handled holds =>
      rcases handled with rfl | rfl
      · exact holds (by simpa using he.2.1)
      · exact holds (by simpa using he.2.2)
  | pong e i n =>
    obtain ⟨-, -, hfirst, hidle, hping⟩ := he
    cases drained.waits_of_first hfirst with
    | full first passes =>
      obtain rfl := Option.some.inj (first.symm.trans hfirst)
      obtain ⟨c, found⟩ := content_of_first first
      cases hop_of_effect found passes with
      | decoded => simp [found] at hping
    | decoded _ holds => exact holds (by simpa using hidle)
  | process h j n =>
    obtain ⟨hfirst, -, hcontrol⟩ := he
    cases drained.waits_of_first hfirst with
    | full first passes =>
      obtain rfl := Option.some.inj (first.symm.trans hfirst)
      obtain ⟨c, found⟩ := content_of_first first
      cases hop_of_effect found passes with
      | delivering _ _ _ data => simp [found, data] at hcontrol
  | reply h j e i n => exact (drained.waits_of_first he.2.2.1).not_outgoing
  | connect | write | endOfStream | ping | control | lose => cases goes

theorem served (drained : s.Drained w stalled) (pack : MessagePack)
    (idle : ∀ h j, s.queue (.delivering h j) = []) : s.Served w pack where
  connected _ _ _ hc := (drained.waits_of_content hc).not_outgoing.elim
  answered _ _ _ _ hc := (drained.waits_of_content hc).not_outgoing.elim
  processed h j _ _ hc := absurd (idle h j) (List.ne_nil_of_mem (find_eq_some hc))

end Drained

/-- A tuple that a task has taken up waits only for a stalled client of the daemon that it is
for. -/
theorem Waits.exists_stalled_of_routed {A : Identifier} {sent : Delivery} {x : Place}
    {c : x.Content} (waits : s.Waits w stalled x) (routed : s.Routed w A sent x c)
    (right : w.RightIdentities A sent.hostId) (hx : ∀ h k, x ≠ .stream h k) :
    ∃ k, stalled sent.hostId k = true := by
  cases x with
  | stream h k => exact absurd rfl (hx h k)
  | inbox => exact routed.elim
  | unixRead | unixSource | unixToNetwork | sink | writing | replying =>
    exact waits.not_outgoing.elim
  | flight | decoded | reading =>
    have hhost := (routed.1.right right).1
    exact hhost ▸ waits.exists_stalled
  | deliverFrame | delivering | networkSource | networkToUnix | handing | channel =>
    have hhost := routed.host right
    exact hhost ▸ waits.exists_stalled

theorem AtRest.absent (rest : s.AtRest w pack stalled) (served : s.Served w pack)
    (sound : s.Sound w) {A B : Identifier} (right : w.RightIdentities A B) {k e j : ℕ} {p : UInt16}
    {srcPort : UInt16} (reads : (s.unix A).clients k = .bound srcPort true)
    (takes : ∀ k', stalled B k' = false) :
    ∀ y ∈ (w.line A B k e j).tail, ∀ n ∈ numbers s.queue y,
      sentTo (s.written A k) A B k p n = false := by
  intro y hy n hn
  refine Bool.eq_false_iff.mpr fun hflow => ?_
  obtain ⟨c, hc⟩ := Option.isSome_iff_exists.mp (find_isSome.mpr hn)
  have hne : s.queue y ≠ [] := List.ne_nil_of_mem (find_eq_some hc)
  rcases sound.form_of_sentTo (.refl s) hflow hc with ⟨sent, hrouted, rfl, -⟩ | rfl
  · have hwaits := (rest.drained served).waits y hne
    have hstream : ∀ h k', y ≠ .stream h k' := by
      rintro h k' rfl
      simp [Wiring.line] at hy
    obtain ⟨k', hstalled⟩ := hwaits.exists_stalled_of_routed hrouted right hstream
    cases (takes k').symm.trans hstalled
  · exact hne (rest.inbox served reads)

section Within

def target (w : Wiring) (s : World) : WorldEvent → Option Place
  | .write h k .. => some (.inbox h k)
  | .advance x n =>
    match s.effect w x n with
    | .pass y _ => some y
    | _ => none
  | .send _ e _ | .ping e _ | .pong e .. | .control e .. | .reply _ _ e .. => some (.sink e)
  | .arrive e _ => some (.decoded e)
  | .process h j _ => some (.replying h j)
  | _ => none

theorem backlog_handleNewStream (u : UnixState) (k : ℕ) (frame : Unix.Frame) :
    (u.handleNewStream k frame).backlog = u.backlog := by
  cases frame <;> rfl

theorem backlog_endOfStream (u : UnixState) (k : ℕ) :
    (u.endOfStream k).backlog = u.backlog := by
  unfold UnixState.endOfStream
  split <;> rfl

theorem backlog_setUnix {h' : Identifier} {u : UnixState}
    (same : u.backlog = (s.unix h').backlog) (h : Identifier) :
    ((s.setUnix h' u).unix h).backlog = (s.unix h).backlog := by
  by_cases hh : h = h'
  · subst hh
    simpa [setUnix] using same
  · simp [setUnix, hh]

theorem Step.backlog {t : World} {ev : WorldEvent} (step : Step w pack s ev t) :
    (∃ h, ev = .connect h (s.unix h).nextClient ∧
      t = s.setUnix h { s.unix h with
        nextClient := (s.unix h).nextClient + 1
        backlog := (s.unix h).backlog ++ [(s.unix h).nextClient] }) ∨
    (∃ h k rest, ev = .accept h k ∧ (s.unix h).backlog = k :: rest ∧
      t = s.setUnix h { s.unix h with handling := some k, backlog := rest }) ∨
    ∀ h, (t.unix h).backlog = (s.unix h).backlog := by
  cases step with
  | connect h => exact .inl ⟨h, rfl, rfl⟩
  | accept h k rest idle oldest => exact .inr (.inl ⟨h, k, rest, rfl, oldest, rfl⟩)
  | firstFrame h k n frame =>
    exact .inr (.inr (backlog_setUnix (s := s) (backlog_handleNewStream _ k frame)))
  | endOfStream h k => exact .inr (.inr (backlog_setUnix (backlog_endOfStream _ k)))
  | stop h k => exact .inr (.inr (backlog_setUnix (s := s) (backlog_endOfStream _ k)))
  | _ => exact .inr (.inr fun _ => rfl)

theorem Step.connects {t : World} {ev : WorldEvent} (step : Step w pack s ev t) {h : Identifier}
    (waits : (t.unix h).backlog ≠ []) : (s.unix h).backlog ≠ [] ∨ ∃ k, ev = .connect h k := by
  rcases step.backlog with ⟨h', rfl, rfl⟩ | ⟨h', k, rest, rfl, oldest, rfl⟩ | same
  · by_cases hh : h = h'
    · subst hh
      exact .inr ⟨_, rfl⟩
    · exact .inl (by simpa [setUnix, hh] using waits)
  · by_cases hh : h = h'
    · subst hh
      exact .inl (by simp [oldest])
    · exact .inl (by simpa [setUnix, hh] using waits)
  · exact .inl (same h ▸ waits)

end Within

end World

section Pair
open World (InOrder)

end Pair

end Uip
