import Uip.UnixServerInvariant

/-!
# The forwarding loop from the network to the clients

One loop hands the frames of the network to the channels of the clients, one after another. While
it waits for room in one channel, it takes no other frame from the queue.
-/
namespace Uip
open TransitionSystem Transport

def UnixEvent.channel : UnixEvent → Option ℕ
  | .first k (some (.frame (.bind _))) | .takeFrame k _ | .writeFailed k _ | .channelClosed k
  | .handed k _ => some k
  | _ => none

namespace UnixServer

variable {s t : UnixServer} {e : UnixEvent} {k x y : ℕ} {tuple : Delivery}

/-- The channel of the client is full, and its write task may still make room in it. -/
def choked (s : UnixServer) (y : ℕ) : Prop :=
  (s.streams y).writeTask ≠ .ended ∧ (s.streams y).channel.full = true

instance (s : UnixServer) (y : ℕ) : Decidable (s.choked y) := inferInstanceAs (Decidable (_ ∧ _))

/-- The loop waits for room in the channel of the client. -/
def Stalled (s : UnixServer) (y : ℕ) : Prop := s.handing.map Prod.fst = some y ∧ s.choked y

instance (s : UnixServer) (y : ℕ) : Decidable (s.Stalled y) := inferInstanceAs (Decidable (_ ∧ _))

/-- The tuple is for another client, whose channel has room. -/
def Ready (s : UnixServer) (y : ℕ) (tuple : Delivery) : Prop :=
  ∃ x ∈ s.unix.connections.lookup tuple.dstPort, x ≠ y ∧ s.hasRoom x

instance (s : UnixServer) (y : ℕ) (tuple : Delivery) : Decidable (s.Ready y tuple) :=
  inferInstanceAs
    (Decidable (∃ x ∈ s.unix.connections.lookup tuple.dstPort, x ≠ y ∧ s.hasRoom x))

/-- Nothing for another client with room waits behind the frame in the hands of the loop. -/
def Flows (s : UnixServer) : Prop :=
  ∀ y, s.Stalled y → ∀ tuple ∈ s.networkSource.items, ¬ s.Ready y tuple

/-- While the loop waits, no frame for another client with room is queued, and no other client
whose frames are queued gets a channel or room in it; and no frame for a full channel is taken from
the queue with such a frame behind it. -/
def KeepsFlow (s : UnixServer) : UnixEvent → Prop
  | .deliver tuple => ∀ y ∈ s.unix.connections.lookup tuple.dstPort, s.choked y →
      ∀ tuple ∈ s.networkSource.items.tail, ¬ s.Ready y tuple
  | .enqueue tuple => ∀ y, s.Stalled y → ¬ s.Ready y tuple
  | .takeFrame x _ => ∀ y ≠ x, s.Stalled y → ∀ tuple ∈ s.networkSource.items,
      s.unix.connections.lookup tuple.dstPort ≠ some x
  | .first _ (some (.frame (.bind p))) => ∀ y, s.Stalled y →
      ∀ tuple ∈ s.networkSource.items, tuple.dstPort ≠ p
  | _ => True

theorem Flows.mono (h : s.Flows) (stalled : ∀ y, t.Stalled y → s.Stalled y)
    (items : ∀ tuple ∈ t.networkSource.items, tuple ∈ s.networkSource.items)
    (ready : ∀ y tuple, t.Stalled y → tuple ∈ t.networkSource.items → t.Ready y tuple →
      s.Ready y tuple) : t.Flows :=
  fun y hy tuple htuple hr =>
    h y (stalled y hy) tuple (items tuple htuple) (ready y tuple hy htuple hr)

theorem hasRoom_congr (hw : t.writeEnded x ↔ s.writeEnded x)
    (hc : (t.streams x).channel = (s.streams x).channel) : t.hasRoom x ↔ s.hasRoom x :=
  and_congr (not_congr hw) (by rw [hc])

theorem choked_congr (hw : t.writeEnded x ↔ s.writeEnded x)
    (hc : (t.streams x).channel = (s.streams x).channel) : t.choked x ↔ s.choked x :=
  and_congr (not_congr hw) (by rw [hc])

theorem next_handing (s : UnixServer) (e : UnixEvent) : (s.next e).handing = match e with
    | .deliver tuple =>
      s.unix.deliverFrame tuple.hostId tuple.srcPort tuple.dstPort tuple.data
    | .handed .. | .handFailed .. => none
    | _ => s.handing := by
  cases e <;> rfl

theorem next_items (he : s.enabled e) : (s.next e).networkSource.items = match e with
    | .enqueue tuple => s.networkSource.items ++ [tuple]
    | .deliver _ => s.networkSource.items.tail
    | _ => s.networkSource.items := by
  cases e with
  | enqueue tuple => exact BoundedQueue.push_items he tuple
  | deliver tuple => exact BoundedQueue.pop_items _
  | _ => rfl

theorem send_channel (stream : UnixStream) (srcPort : Option UInt16) (item : Option ReadItem) :
    (stream.send srcPort item).channel = stream.channel := by
  unfold UnixStream.send
  split <;> rfl

theorem next_channel (he : s.enabled e) (hx : e.channel ≠ some x) :
    ((s.next e).streams x).channel = (s.streams x).channel ∧
      ((s.next e).writeEnded x ↔ s.writeEnded x) := by
  constructor
  · by_cases hs : e.stream = some x
    · cases e with
      | first j item =>
        obtain rfl := Option.some.inj hs
        rcases start_cases (s.streams j) item with ⟨p, rfl⟩ | ⟨_, hstart⟩
        · exact absurd rfl hx
        · simp [next, modify, hstart]
      | read j item =>
        obtain rfl := Option.some.inj hs
        simp [next, modify, send_channel]
      | connect j | write j | close j | sent j | written j =>
        obtain rfl := Option.some.inj hs
        simp [next, modify]
      | takeFrame | writeFailed | channelClosed | handed => exact absurd hs hx
      | _ => rfl
    · rw [next_stream s e hs]
  · rw [next_writeEnded he]
    cases e with
    | first j item =>
      refine and_iff_right_of_imp fun _ => ?_
      rintro rfl p rfl
      exact hx rfl
    | writeFailed j | channelClosed j =>
      have hne : x ≠ j := fun h => hx (congrArg some h.symm)
      simp [hne]
    | _ => rfl

theorem next_hasRoom (he : s.enabled e) (hx : e.channel ≠ some x) :
    (s.next e).hasRoom x ↔ s.hasRoom x :=
  hasRoom_congr (next_channel he hx).2 (next_channel he hx).1

theorem next_choked (he : s.enabled e) (hx : e.channel ≠ some x) :
    (s.next e).choked x ↔ s.choked x :=
  choked_congr (next_channel he hx).2 (next_channel he hx).1

/-- The loop hands frames to clients that are bound. -/
structure Handing (s : UnixServer) : Prop where
  unix : s.unix.Valid
  bound : ∀ y, s.handing.map Prod.fst = some y → s.unix.bound y ≠ none

theorem deliverFrame_client (u : UnixState) (tuple : Delivery) :
    (u.deliverFrame tuple.hostId tuple.srcPort tuple.dstPort tuple.data).map Prod.fst =
      u.connections.lookup tuple.dstPort := by
  simp [UnixState.deliverFrame, Function.comp_def]

theorem Handing.next (h : s.Handing) (he : s.enabled e) : (s.next e).Handing where
  unix := unix_next h.unix he
  bound y hy := by
    have hold : s.unix.bound y ≠ none := by
      rw [next_handing] at hy
      cases e with
      | deliver tuple =>
        rw [deliverFrame_client] at hy
        simp [h.unix.registered _ _ hy]
      | handed | handFailed => simp at hy
      | _ => exact h.bound y hy
    obtain ⟨p, hp⟩ := Option.ne_none_iff_exists'.mp hold
    simp [(next_bound h.unix he).mpr (.inr hp)]

theorem flows_quiet (h : s.unix.Valid) (hs : s.Flows) (he : s.enabled e)
    (hchannel : e.channel = none) (hhanding : (s.next e).handing = s.handing)
    (hitems : (s.next e).networkSource.items = s.networkSource.items) : (s.next e).Flows := by
  have hx : ∀ x, e.channel ≠ some x := by simp [hchannel]
  have hbind : ∀ k p, e ≠ .first k (binds p) := by
    rintro k p rfl
    simp [UnixEvent.channel, binds] at hchannel
  refine hs.mono (fun y hy => ?_) (fun tuple ht => hitems ▸ ht) fun y tuple _ _ hr => ?_
  · exact ⟨hhanding ▸ hy.1, (next_choked he (hx y)).mp hy.2⟩
  · obtain ⟨x, hlookup, hne, hroom⟩ := hr
    have hold := ((next_lookup h he).mp hlookup).resolve_left (hbind x _)
    exact ⟨x, hold.2, hne, (next_hasRoom he (hx x)).mp hroom⟩

theorem flows_ended (h : s.unix.Valid) (hs : s.Flows) (he : s.enabled e)
    (hchannel : e.channel = some k) (hended : (s.next e).writeEnded k)
    (hhanding : (s.next e).handing = s.handing)
    (hitems : (s.next e).networkSource.items = s.networkSource.items)
    (hbind : ∀ k p, e ≠ .first k (binds p)) : (s.next e).Flows := by
  have hx : ∀ x, x ≠ k → e.channel ≠ some x := fun x hne => by simp [hchannel, Ne.symm hne]
  refine hs.mono (fun y hy => ?_) (fun tuple ht => hitems ▸ ht) fun y tuple _ _ hr => ?_
  · have hne : y ≠ k := by
      rintro rfl
      exact hy.2.1 hended
    exact ⟨hhanding ▸ hy.1, (next_choked he (hx y hne)).mp hy.2⟩
  · obtain ⟨x, hlookup, hne, hroom⟩ := hr
    have hnek : x ≠ k := by
      rintro rfl
      exact hroom.1 hended
    have hold := ((next_lookup h he).mp hlookup).resolve_left (hbind x _)
    exact ⟨x, hold.2, hne, (next_hasRoom he (hx x hnek)).mp hroom⟩

theorem flows_takeFrame (hs : s.Flows) {frame : Unix.Frame} (he : s.enabled (.takeFrame k frame)) :
    (s.next (.takeFrame k frame)).Flows ↔ s.KeepsFlow (.takeFrame k frame) := by
  have hx : ∀ x, x ≠ k → (UnixEvent.takeFrame k frame).channel ≠ some x := fun x hne => by
    simp [UnixEvent.channel, Ne.symm hne]
  have hnot : ((s.next (.takeFrame k frame)).streams k).channel.full = false := by
    simpa [next, modify] using BoundedQueue.pop_full he.2
  have hroom : (s.next (.takeFrame k frame)).hasRoom k :=
    ⟨by simp [next, modify], hnot⟩
  constructor
  · intro hflows y hne hy tuple htuple hlookup
    have hstalled : (s.next (.takeFrame k frame)).Stalled y :=
      ⟨hy.1, (next_choked he (hx y hne)).mpr hy.2⟩
    exact hflows y hstalled tuple htuple ⟨k, hlookup, Ne.symm hne, hroom⟩
  · rintro hkeeps y hy tuple htuple ⟨x, hlookup, hxy, hxroom⟩
    have hne : y ≠ k := by
      rintro rfl
      exact absurd hy.2.2 (by simp [hnot])
    have hstalled : s.Stalled y := ⟨hy.1, (next_choked he (hx y hne)).mp hy.2⟩
    by_cases hxk : x = k
    · exact hkeeps y hne hstalled tuple htuple (hxk ▸ hlookup)
    · exact hs y hstalled tuple htuple ⟨x, hlookup, hxy, (next_hasRoom he (hx x hxk)).mp hxroom⟩

theorem flows_first (h : s.Handing) (hs : s.Flows) {p : UInt16}
    (he : s.enabled (.first k (binds p))) :
    (s.next (.first k (binds p))).Flows ↔ s.KeepsFlow (.first k (binds p)) := by
  have hx : ∀ x, x ≠ k → (UnixEvent.first k (binds p)).channel ≠ some x := fun x hne => by
    simp [UnixEvent.channel, binds, Ne.symm hne]
  have hunbound : s.unix.bound k = none :=
    UnixState.bound_of_connected (h.unix.waiting k (by simp [UnixState.waiting, he.1])).1
  have hstalled : ∀ y, (s.next (.first k (binds p))).Stalled y ↔ s.Stalled y := by
    intro y
    refine and_congr_right fun hy => next_choked he (hx y ?_)
    rintro rfl
    exact h.bound y hy hunbound
  have hroom : (s.next (.first k (binds p))).hasRoom k := by
    simp [hasRoom, next, modify, UnixStream.start, binds, BoundedQueue.full]
  constructor
  · rintro hflows y hy tuple htuple rfl
    have hne : y ≠ k := by
      rintro rfl
      exact h.bound y hy.1 hunbound
    exact hflows y ((hstalled y).mpr hy) tuple htuple
      ⟨k, (next_lookup h.unix he).mpr (.inl rfl), Ne.symm hne, hroom⟩
  · rintro hkeeps y hy tuple htuple ⟨x, hlookup, hxy, hxroom⟩
    have hy' := (hstalled y).mp hy
    rcases (next_lookup h.unix he).mp hlookup with hfirst | ⟨_, hold⟩
    · have hp : tuple.dstPort = p := by
        simp only [binds, UnixEvent.first.injEq, Option.some.injEq, ReadItem.frame.injEq,
          Unix.Frame.bind.injEq] at hfirst
        exact hfirst.2.symm
      exact hkeeps y hy' tuple htuple hp
    · have hxk : x ≠ k := by
        rintro rfl
        simp [h.unix.registered _ _ hold] at hunbound
      exact hs y hy' tuple htuple ⟨x, hold, hxy, (next_hasRoom he (hx x hxk)).mp hxroom⟩

theorem flows_next (h : s.Handing) (hs : s.Flows) (he : s.enabled e) :
    (s.next e).Flows ↔ s.KeepsFlow e := by
  cases e with
  | first k item =>
    by_cases hb : ∃ p, item = binds p
    · obtain ⟨p, rfl⟩ := hb
      exact flows_first h hs he
    · match item with
      | some (.frame (.bind p)) => exact absurd ⟨p, rfl⟩ hb
      | some (.frame (.data ..)) | some (.frame (.error _)) | some .error | none =>
        exact iff_of_true (flows_quiet h.unix hs he rfl rfl rfl) trivial
  | takeFrame k frame => exact flows_takeFrame hs he
  | writeFailed k | channelClosed k =>
    have hended := (next_writeEnded he).mpr (.inl rfl)
    exact iff_of_true (flows_ended h.unix hs he rfl hended rfl rfl (by simp)) trivial
  | enqueue tuple =>
    have hitems := next_items he
    constructor
    · intro hflows y hy
      exact hflows y hy tuple (by simp [hitems])
    · intro hkeeps y hy behind hbehind
      rw [hitems] at hbehind
      rcases List.mem_append.mp hbehind with hold | hnew
      · exact hs y hy behind hold
      · obtain rfl := List.mem_singleton.mp hnew
        exact hkeeps y hy
  | deliver tuple =>
    have hitems : (s.next (.deliver tuple)).networkSource.items =
        s.networkSource.items.tail := next_items he
    have hstalled : ∀ y, (s.next (.deliver tuple)).Stalled y ↔
        s.unix.connections.lookup tuple.dstPort = some y ∧ s.choked y := by
      intro y
      rw [Stalled, next_handing, deliverFrame_client]
      rfl
    constructor
    · intro hflows y hy hchoked behind hbehind
      exact hflows y ((hstalled y).mpr ⟨hy, hchoked⟩) behind (hitems ▸ hbehind)
    · intro hkeeps y hy behind hbehind
      obtain ⟨hlookup, hchoked⟩ := (hstalled y).mp hy
      exact hkeeps y hlookup hchoked behind (hitems ▸ hbehind)
  | handed | handFailed => exact iff_of_true (fun y hy => absurd hy.1 (by simp [next])) trivial
  | _ => exact iff_of_true (flows_quiet h.unix hs he rfl rfl rfl) trivial

end UnixServer

/-- No frame for a client with room waits behind one for a client without exactly where every step
keeps the flow. -/
theorem flows_iff (r : Run unixMachine) : (∀ x ∈ r.transitions, x.target.Flows) ↔
    ∀ x ∈ r.transitions, x.source.KeepsFlow x.label := by
  apply Run.guarded_iff (I := UnixServer.Handing) (P := UnixServer.Flows)
  · rintro s rfl
    exact ⟨⟨.new, by simp [UnixServer.new]⟩, fun y hy => absurd hy.1 (by simp [UnixServer.new])⟩
  · exact fun _ _ h he => h.next he
  · exact fun _ _ h hs he => UnixServer.flows_next h hs he

def passEvents (k : ℕ) (tuple : Delivery) : List UnixEvent :=
  [.enqueue tuple, .deliver tuple, .handed k (.data tuple.hostId tuple.srcPort tuple.data)]

/-- A client stops reading: its write task holds a frame, its channel is full and the loop waits
for room in it, while a frame for a client with an empty channel is queued. -/
theorem stalled_by_client : ∃ s, Reachable unixMachine s ∧ s.Stalled 0 ∧
    (s.streams 1).channel.items = [] ∧ s.hasRoom 1 ∧ ¬ s.Flows := by
  obtain ⟨s, hs, h⟩ := exec_reachable (M := unixMachine) rfl
    (bindEvents 0 80 ++ bindEvents 1 81 ++ passEvents 0 ⟨digestOne, 1, 80, []⟩ ++
      .takeFrame 0 (.data digestOne 1 []) ::
      (List.replicate 10 (passEvents 0 ⟨digestOne, 1, 80, []⟩)).flatten ++
      [.enqueue ⟨digestOne, 1, 80, []⟩, .deliver ⟨digestOne, 1, 80, []⟩,
        .enqueue ⟨digestOne, 1, 81, []⟩])
    (p := fun s => decide (s.Stalled 0 ∧ (s.streams 1).channel.items = [] ∧ s.hasRoom 1 ∧
      ∃ tuple ∈ s.networkSource.items, s.Ready 0 tuple)) (by decide)
  obtain ⟨hstalled, hempty, hroom, tuple, htuple, hready⟩ := of_decide_eq_true h
  exact ⟨s, hs, hstalled, hempty, hroom, fun hflows => hflows 0 hstalled tuple htuple hready⟩

end Uip
