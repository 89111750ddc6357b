import Uip.EventLogs
import Uip.UnixForwarding
import Uip.UnixIdleClient

/-! What local clients send goes upstream, and what comes for them goes to them, in its order, for
any number of clients that connect, send, read and leave at will. -/
namespace Uip
open TransitionSystem Transport

/-- The tuple that the read task of a client bound to `srcPort` makes of an item. -/
def ReadItem.tuple (srcPort : UInt16) : ReadItem → Option Delivery
  | .frame (.data hostId dstPort data) => some (UnixState.sendFrame hostId srcPort dstPort data)
  | _ => none

/-- What a client bound to `srcPort` has sent before its read task ends. -/
def leading (srcPort : UInt16) : List ReadItem → List Delivery
  | [] => []
  | item :: items =>
    match item.tuple srcPort with
    | some tuple => tuple :: leading srcPort items
    | none => []

/-- What a client that has written these items is to send upstream. -/
def session : List ReadItem → List Delivery
  | .frame (.bind srcPort) :: items => leading srcPort items
  | _ => []

/-- The frame that a tuple of the network becomes. -/
def localFrame (tuple : Delivery) : Unix.Frame := .data tuple.hostId tuple.srcPort tuple.data

def UnixWriteTask.frame : UnixWriteTask → Option Unix.Frame
  | .writing frame => some frame
  | _ => none

namespace UnixEvent

def sends : UnixEvent → Option (ℕ × Delivery)
  | .sent k tuple => some (k, tuple)
  | _ => none

def takes : UnixEvent → Option Delivery
  | .takeUpstream tuple => some tuple
  | _ => none

def gets (k : ℕ) : UnixEvent → Option Unix.Frame
  | .written j frame => if j = k then some frame else none
  | _ => none

def hands (k : ℕ) : UnixEvent → Option Unix.Frame
  | .handed j frame => if j = k then some frame else none
  | _ => none

def comes (dstPort : UInt16) : UnixEvent → Option Unix.Frame
  | .enqueue tuple => if tuple.dstPort = dstPort then some (localFrame tuple) else none
  | _ => none

end UnixEvent

theorem leading_append {srcPort : UInt16} {items rest : List ReadItem} {tuples : List Delivery}
    (h : items.map (ReadItem.tuple srcPort) = tuples.map some) :
    leading srcPort (items ++ rest) = tuples ++ leading srcPort rest := by
  induction items generalizing tuples with
  | nil =>
    obtain rfl : tuples = [] := by simpa using h.symm
    rfl
  | cons item items ih =>
    cases tuples with
    | nil => simp at h
    | cons tuple tuples =>
      obtain ⟨hitem, hitems⟩ := List.cons.inj h
      rw [List.cons_append, leading, hitem, ih hitems]
      rfl

namespace UnixServer

variable {s : UnixServer} {e : UnixEvent} {k : ℕ} {p : UInt16} {sent : List Delivery}

section Upstream

/-- The client has sent the tuples `sent`, made of what it wrote after its first frame. -/
structure Session (s : UnixServer) (k : ℕ) (sent : List Delivery) : Prop where
  unbound : s.unix.bound k = none → sent = [] ∧ (s.streams k).sending = none
  bound : ∀ p, s.unix.bound k = some p → ∃ items,
    (s.streams k).client.written = .frame (.bind p) :: items ++ (s.streams k).input ∧
      items.map (ReadItem.tuple p) = (sent ++ (s.streams k).sending.toList).map some

theorem Session.new (k : ℕ) : UnixServer.new.Session k [] where
  unbound _ := ⟨rfl, rfl⟩
  bound _ h := by simp [UnixServer.new, UnixState.new, UnixState.bound, Client.port] at h

def sentBy (k : ℕ) (e : UnixEvent) : List Delivery :=
  (e.sends.toList.filter fun x => x.1 = k).map Prod.snd

theorem sentBy_of_stream (h : e.stream ≠ some k) : sentBy k e = [] := by
  cases e with
  | sent j tuple =>
    have hne : j ≠ k := fun hj => h (congrArg some hj)
    simp [sentBy, UnixEvent.sends, hne]
  | _ => rfl

theorem bound_of_ne (h : s.unix.Valid) (he : s.enabled e) (hne : ∀ p, e ≠ .first k (binds p)) :
    (s.next e).unix.bound k = s.unix.bound k := by
  apply Option.ext
  intro p
  rw [next_bound h he, or_iff_right (hne p)]

theorem Session.congr (h : s.Session k sent) (hb : (s.next e).unix.bound k = s.unix.bound k)
    (hsending : ((s.next e).streams k).sending = (s.streams k).sending)
    (hinput : ∃ new, ((s.next e).streams k).input = (s.streams k).input ++ new ∧
      ((s.next e).streams k).client.written = (s.streams k).client.written ++ new) :
    (s.next e).Session k sent := by
  obtain ⟨new, hinput, hwritten⟩ := hinput
  refine ⟨fun hk => ?_, fun p hk => ?_⟩
  · rw [hsending]
    exact h.unbound (hb ▸ hk)
  · obtain ⟨items, hitems, htuples⟩ := h.bound p (hb ▸ hk)
    refine ⟨items, ?_, by rw [hsending, htuples]⟩
    rw [hwritten, hinput, hitems, List.append_assoc]

/-- The first frame of a client: nothing was read from it before. -/
theorem Session.first (h : s.Session k sent) (ho : s.Orderly) {item : Option ReadItem}
    (he : s.enabled (.first k item)) : (s.next (.first k item)).Session k sent := by
  have hclient : s.unix.clients k = .connected :=
    (ho.unix.waiting k (by simp [UnixState.waiting, he.1])).1
  obtain ⟨hsent, hsending⟩ := h.unbound (UnixState.bound_of_connected hclient)
  rcases start_cases (s.streams k) item with ⟨q, rfl⟩ | ⟨hitem, hstart⟩
  · have hbound : (s.next (.first k (binds q))).unix.bound k = some q :=
      (next_bound ho.unix he).mpr (.inl rfl)
    refine ⟨fun hk => by simp [hbound] at hk, fun p hk => ⟨[], ?_, ?_⟩⟩
    · obtain rfl := Option.some.inj (hbound.symm.trans hk)
      have hinput := ho.input k hclient
      have hpoll := he.2
      cases hl : (s.streams k).input with
      | nil => simp [UnixStream.poll, hl, binds] at hpoll
      | cons first rest =>
        obtain rfl : first = .frame (.bind q) := by
          simpa [UnixStream.poll, hl, binds] using hpoll
        simp [next, modify, UnixStream.start, binds, hl, ← hinput]
    · simp [next, modify, UnixStream.start, binds, hsent, hsending]
  · have hne : ∀ q, UnixEvent.first k item ≠ .first k (binds q) := fun q heq =>
      hitem q (UnixEvent.first.inj heq).2
    refine h.congr (bound_of_ne ho.unix he hne) ?_ ⟨[], ?_⟩ <;> simp [next, modify, hstart]

theorem Session.read (h : s.Session k sent) (ho : s.Orderly) {item : Option ReadItem}
    (he : s.enabled (.read k item)) : (s.next (.read k item)).Session k sent := by
  have hbound := bound_of_ne (k := k) ho.unix he (by simp)
  obtain ⟨⟨q, hq, _⟩, hnone, hpoll⟩ := he
  rcases read_cases s.unix k item with ⟨hostId, dstPort, data, rfl, -⟩ | ⟨hitem, -⟩
  · refine ⟨fun hk => ?_, fun p hk => ?_⟩
    · rw [hbound, hq] at hk
      cases hk
    · obtain ⟨items, hitems, htuples⟩ := h.bound p (hbound ▸ hk)
      rw [hbound] at hk
      cases hl : (s.streams k).input with
      | nil => simp [UnixStream.poll, hl] at hpoll
      | cons first rest =>
        obtain rfl : first = .frame (.data hostId dstPort data) := by
          simpa [UnixStream.poll, hl] using hpoll
        refine ⟨items ++ [.frame (.data hostId dstPort data)], ?_, ?_⟩
        · simp [next, modify, UnixStream.send, hl, hitems]
        · rw [hnone, Option.toList_none, List.append_nil] at htuples
          simp [next, modify, UnixStream.send, htuples, hk, ReadItem.tuple]
  · have hsend : (s.streams k).send (s.unix.bound k) item = s.streams k := by
      unfold UnixStream.send
      split
      · exact absurd rfl (hitem _ _ _)
      · rfl
    refine h.congr hbound ?_ ⟨[], ?_⟩ <;> simp [next, modify, hsend]

theorem Session.next (h : s.Session k sent) (ho : s.Orderly) (he : s.enabled e) :
    (s.next e).Session k (sent ++ sentBy k e) := by
  by_cases hs : e.stream = some k
  · cases e with
    | first j item =>
      obtain rfl := Option.some.inj hs
      simpa [sentBy, UnixEvent.sends] using h.first ho he
    | read j item =>
      obtain rfl := Option.some.inj hs
      simpa [sentBy, UnixEvent.sends] using h.read ho he
    | sent j tuple =>
      obtain rfl := Option.some.inj hs
      have hbound := bound_of_ne (k := j) ho.unix he (by simp)
      have hsending := he.1
      refine ⟨fun hk => ?_, fun p hk => ?_⟩
      · have hnone := (h.unbound (hbound ▸ hk)).2
        simp [hsending] at hnone
      · obtain ⟨items, hitems, htuples⟩ := h.bound p (hbound ▸ hk)
        refine ⟨items, by simpa [UnixServer.next, modify] using hitems, ?_⟩
        simpa [UnixServer.next, modify, sentBy, UnixEvent.sends, hsending] using htuples
    | write j item =>
      obtain rfl := Option.some.inj hs
      have hcongr := h.congr (bound_of_ne ho.unix he (by simp))
        (by simp [UnixServer.next, modify]) ⟨[item], by simp [UnixServer.next, modify]⟩
      simpa [sentBy, UnixEvent.sends] using hcongr
    | connect j | close j | takeFrame j | written j | writeFailed j | channelClosed j
    | handed j =>
      obtain rfl := Option.some.inj hs
      have hcongr := h.congr (bound_of_ne ho.unix he (by simp))
        (by simp [UnixServer.next, modify]) ⟨[], by simp [UnixServer.next, modify]⟩
      simpa [sentBy, UnixEvent.sends] using hcongr
    | accept | takeUpstream | enqueue | deliver | handFailed => cases hs
  · have hsame := next_stream s e hs
    have hne : ∀ p, e ≠ .first k (binds p) := by
      rintro p rfl
      exact hs rfl
    rw [sentBy_of_stream hs, List.append_nil]
    exact h.congr (bound_of_ne ho.unix he hne) (by rw [hsame]) ⟨[], by simp [hsame]⟩

theorem Session.of_path {trace : List (Transition UnixServer UnixEvent)}
    (path : Path unixMachine .new trace s) (k : ℕ) :
    s.Session k (trace.flatMap fun x => sentBy k x.label) := by
  induction path with
  | nil => exact .new k
  | snoc prior step ih =>
    obtain ⟨he, rfl⟩ := guarded_step.mp step
    have ho := Orderly.of_reachable ((Reachable.start rfl).extend prior)
    rw [List.flatMap_append, List.flatMap_singleton]
    exact ih.next ho he

/-- The channel to the network is a queue. -/
theorem upstream_next (he : s.enabled e) : e.takes.toList ++ (s.next e).upstream.items =
    s.upstream.items ++ (e.sends.map Prod.snd).toList := by
  cases e with
  | sent j tuple =>
    have hpush := BoundedQueue.push_items he.2 tuple
    simpa [UnixEvent.takes, UnixEvent.sends, UnixServer.next] using hpush
  | takeUpstream tuple =>
    obtain ⟨rest, hrest⟩ := List.head?_eq_some_iff.mp he
    have hpop := BoundedQueue.pop_items s.upstream
    simp [UnixEvent.takes, UnixEvent.sends, UnixServer.next, hpop, hrest]
  | _ => simp [UnixEvent.takes, UnixEvent.sends, UnixServer.next, modify, deliverFrame]

theorem Session.isPrefix (h : s.Session k sent) :
    sent ++ (s.streams k).sending.toList <+: session (s.streams k).client.written ∧
      (s.unix.bound k ≠ none → (s.streams k).input = [] →
        sent ++ (s.streams k).sending.toList = session (s.streams k).client.written) := by
  cases hb : s.unix.bound k with
  | none =>
    obtain ⟨rfl, hsending⟩ := h.unbound hb
    simp [hsending]
  | some p =>
    obtain ⟨items, hitems, htuples⟩ := h.bound p hb
    rw [hitems, List.cons_append, session, leading_append htuples]
    refine ⟨List.prefix_append _ _, fun _ hinput => ?_⟩
    rw [hinput, leading, List.append_nil]

end Upstream

section Downstream

def inHand (s : UnixServer) (k : ℕ) : List Unix.Frame :=
  (s.streams k).writeTask.frame.toList ++ (s.streams k).channel.items

/-- The frame in the hands of the loop, where it is for the client. -/
def handed (s : UnixServer) (k : ℕ) : List Unix.Frame :=
  ((s.handing.filter fun found => found.1 = k).map Prod.snd).toList

/-- The frames for the port that the loop has and those in the queue before it. -/
def ahead (s : UnixServer) (k : ℕ) (p : UInt16) : List Unix.Frame :=
  s.handed k ++ (s.networkSource.items.filter fun tuple => tuple.dstPort = p).map localFrame

/-- The step loses a frame for the client, which is bound to the port. -/
def Loses (s : UnixServer) (k : ℕ) (p : UInt16) : UnixEvent → Prop
  | .writeFailed j _ | .channelClosed j | .handFailed j _ => j = k
  | .deliver tuple => tuple.dstPort = p ∧ s.unix.connections.lookup p ≠ some k
  | _ => False

/-- What a client has is empty before it is bound and after its write task has ended. -/
structure Drained (s : UnixServer) : Prop where
  handing : s.Handing
  ended : ∀ k, s.writeEnded k → (s.streams k).channel.items = []
  unbound : ∀ k, s.unix.bound k = none → s.writeEnded k

theorem Drained.new : UnixServer.new.Drained where
  handing := ⟨.new, by simp [UnixServer.new]⟩
  ended _ _ := rfl
  unbound _ _ := rfl

theorem Drained.next (h : s.Drained) (he : s.enabled e) : (s.next e).Drained where
  handing := h.handing.next he
  ended k hk := by
    by_cases hc : e.channel = some k
    · cases e with
      | first j item =>
        match item with
        | some (.frame (.bind q)) =>
          obtain rfl := Option.some.inj hc
          simp [UnixServer.next, modify, UnixStream.start, BoundedQueue.empty]
        | some (.frame (.data ..)) | some (.frame (.error _)) | some .error | none => cases hc
      | takeFrame j frame =>
        obtain rfl := Option.some.inj hc
        simp [UnixServer.next, modify, writeEnded] at hk
      | writeFailed j | channelClosed j =>
        obtain rfl := Option.some.inj hc
        simp [UnixServer.next, modify, BoundedQueue.empty]
      | handed j frame =>
        obtain rfl := Option.some.inj hc
        exact absurd ((next_writeEnded he).mp hk) he.2.1
      | _ => cases hc
    · obtain ⟨hchannel, hended⟩ := next_channel he hc
      rw [hchannel]
      exact h.ended k (hended.mp hk)
  unbound k hk := by
    have hne : ∀ p, e ≠ .first k (binds p) := by
      rintro p rfl
      simp [(next_bound h.handing.unix he).mpr (.inl rfl)] at hk
    have hended := h.unbound k ((bound_of_ne h.handing.unix he hne).symm.trans hk)
    rw [next_writeEnded he]
    cases e with
    | first j item =>
      refine ⟨?_, hended⟩
      rintro rfl p rfl
      exact hne p rfl
    | writeFailed j | channelClosed j => exact .inr hended
    | _ => exact hended

theorem Drained.of_reachable (h : Reachable unixMachine s) : s.Drained :=
  h.guarded_induct (fun _ hs => hs ▸ .new) fun _ _ hs he => hs.next he

theorem handed_deliver (h : s.Handing) {tuple : Delivery}
    (hp : ∀ q, s.unix.bound k = some q → q = p) :
    (s.next (.deliver tuple)).handed k = (if tuple.dstPort = p then [localFrame tuple] else []) ∨
      s.Loses k p (.deliver tuple) ∧ (s.next (.deliver tuple)).handed k = [] := by
  unfold handed
  rw [next_handing]
  simp only [UnixState.deliverFrame]
  cases hl : s.unix.connections.lookup tuple.dstPort with
  | none =>
    by_cases hport : tuple.dstPort = p
    · subst hport
      exact .inr ⟨⟨rfl, by simp [hl]⟩, rfl⟩
    · exact .inl (by simp [hport])
  | some j =>
    have hj := h.unix.registered _ _ hl
    by_cases hjk : j = k
    · subst hjk
      have hport := hp _ hj
      exact .inl (by simp [hport, localFrame])
    · by_cases hport : tuple.dstPort = p
      · subst hport
        exact .inr ⟨⟨rfl, by simp [hl, hjk]⟩, by simp [hjk]⟩
      · exact .inl (by simp [hport, hjk])

/-- The loop puts the frames for the port into the channel of the client. -/
theorem ahead_next (h : s.Handing) (he : s.enabled e)
    (hp : ∀ q, s.unix.bound k = some q → q = p) :
    (e.hands k).toList ++ (s.next e).ahead k p = s.ahead k p ++ (e.comes p).toList ∨
      s.Loses k p e ∧ ((e.hands k).toList ++ (s.next e).ahead k p).Sublist
        (s.ahead k p ++ (e.comes p).toList) := by
  cases e with
  | enqueue tuple =>
    left
    have hitems := next_items he
    simp only [ahead, handed, next_handing, hitems, UnixEvent.hands, UnixEvent.comes]
    by_cases hport : tuple.dstPort = p <;> simp [hport]
  | deliver tuple =>
    have hitems := next_items he
    obtain ⟨hnone, hhead⟩ := he
    obtain ⟨rest, hrest⟩ := List.head?_eq_some_iff.mp hhead
    simp only [ahead, hitems, hrest, List.tail_cons, UnixEvent.hands, UnixEvent.comes,
      Option.toList_none, List.nil_append, List.append_nil]
    have hold : s.handed k = [] := by simp [handed, hnone]
    rcases handed_deliver h hp with hnew | ⟨hloses, hnew⟩
    · left
      rw [hnew, hold]
      by_cases hport : tuple.dstPort = p <;> simp [hport]
    · refine .inr ⟨hloses, ?_⟩
      rw [hnew, hold, List.nil_append, List.nil_append]
      exact ((List.sublist_cons_self tuple rest).filter _).map _
  | handed j frame =>
    left
    have hitems := next_items he
    have hhanding := he.1
    simp only [ahead, handed, next_handing, hitems, hhanding, UnixEvent.hands, UnixEvent.comes]
    by_cases hj : j = k <;> simp [hj, Option.filter]
  | handFailed j frame =>
    have hitems := next_items he
    simp only [ahead, handed, next_handing, hitems, he.1, UnixEvent.hands, UnixEvent.comes]
    by_cases hj : j = k
    · refine .inr ⟨hj, ?_⟩
      simp [hj, Option.filter]
    · left
      simp [hj, Option.filter]
  | connect | write | close | accept | first | read | sent | takeUpstream | takeFrame | written
  | writeFailed | channelClosed =>
    left
    have hitems := next_items he
    simp [ahead, handed, next_handing, hitems, UnixEvent.hands, UnixEvent.comes]

theorem inHand_next (h : s.Drained) (he : s.enabled e) (p : UInt16) :
    (e.gets k).toList ++ (s.next e).inHand k = s.inHand k ++ (e.hands k).toList ∨
      s.Loses k p e ∧ ((e.gets k).toList ++ (s.next e).inHand k).Sublist
        (s.inHand k ++ (e.hands k).toList) := by
  by_cases hs : e.stream = some k
  · cases e with
    | connect j | write j | close j | sent j =>
      obtain rfl := Option.some.inj hs
      exact .inl (by simp [inHand, next, modify, UnixEvent.gets, UnixEvent.hands])
    | read j item =>
      obtain rfl := Option.some.inj hs
      left
      simp [inHand, next, modify, send_writeTask, send_channel, UnixEvent.gets, UnixEvent.hands]
    | first j item =>
      obtain rfl := Option.some.inj hs
      left
      rcases start_cases (s.streams j) item with ⟨q, rfl⟩ | ⟨-, hstart⟩
      · have hunbound := UnixState.bound_of_connected (h.handing.unix.waiting j
          (by simp [UnixState.waiting, he.1])).1
        have hended : (s.streams j).writeTask = .ended := h.unbound j hunbound
        have hempty := h.ended j hended
        simp [inHand, next, modify, UnixStream.start, binds, hended, hempty, UnixEvent.gets,
          UnixEvent.hands, UnixWriteTask.frame]
      · simp [inHand, next, modify, hstart, UnixEvent.gets, UnixEvent.hands]
    | takeFrame j frame =>
      obtain rfl := Option.some.inj hs
      obtain ⟨hreceiving, hhead⟩ := he
      obtain ⟨rest, hrest⟩ := List.head?_eq_some_iff.mp hhead
      have hpop := BoundedQueue.pop_items (s.streams j).channel
      left
      simp [inHand, next, modify, hreceiving, hpop, hrest, UnixEvent.gets, UnixEvent.hands,
        UnixWriteTask.frame]
    | written j frame =>
      obtain rfl := Option.some.inj hs
      left
      simp [inHand, next, modify, he.1, UnixEvent.gets, UnixEvent.hands, UnixWriteTask.frame]
    | writeFailed j | channelClosed j =>
      obtain rfl := Option.some.inj hs
      refine .inr ⟨rfl, ?_⟩
      simp [inHand, next, modify, UnixEvent.gets, UnixEvent.hands, UnixWriteTask.frame]
    | handed j frame =>
      obtain rfl := Option.some.inj hs
      have hpush := BoundedQueue.push_items he.2.2 frame
      left
      simp [inHand, next, modify, hpush, UnixEvent.gets, UnixEvent.hands]
    | accept | takeUpstream | enqueue | deliver | handFailed => cases hs
  · left
    have hsame : (s.next e).inHand k = s.inHand k := by
      rw [inHand, next_stream s e hs, inHand]
    have hgets : e.gets k = none ∧ e.hands k = none := by
      cases e with
      | written j | handed j =>
        have hne : j ≠ k := fun hj => hs (congrArg some hj)
        simp [UnixEvent.gets, UnixEvent.hands, hne]
      | _ => exact ⟨rfl, rfl⟩
    simp [hsame, hgets.1, hgets.2]

end Downstream

end UnixServer

/-- The network gets what the read tasks send, in this order, and the read task of each client
sends the first part of its session. -/
theorem upstream_in_order (r : Run unixMachine) :
    (r.transitions.filterMap fun x => x.label.takes) ++ r.final.upstream.items =
        (r.transitions.filterMap fun x => x.label.sends).map Prod.snd ∧
      ∀ k, let stream := r.final.streams k
        let sent := ((r.transitions.filterMap fun x => x.label.sends).filter
          fun x => x.1 = k).map Prod.snd
        sent ++ stream.sending.toList <+: session stream.client.written ∧
          (r.final.unix.bound k ≠ none → stream.input = [] →
            sent ++ stream.sending.toList = session stream.client.written) := by
  obtain ⟨start, trace, final, rfl, path⟩ := r
  constructor
  · have hflow := path.flow (fun s => s.upstream.items) (fun x => x.label.takes.toList)
      (fun x => (x.label.sends.map Prod.snd).toList) fun x hx => ?_
    · rw [List.map_filterMap, List.filterMap_eq_flatMap_toList, List.filterMap_eq_flatMap_toList]
      exact hflow
    · obtain ⟨he, hnext⟩ := guarded_step.mp (path.step_of_mem hx)
      rw [← hnext]
      exact UnixServer.upstream_next he
  · intro k
    have hsession := (UnixServer.Session.of_path path k).isPrefix
    rw [keyed_log]
    exact hsession

section Runs
variable {k : ℕ} {p : UInt16}

theorem bound_of_final (r : Run unixMachine) (bound : r.final.unix.bound k = some p) :
    ∀ x ∈ r.transitions, ∀ q, x.source.unix.bound k = some q → q = p := by
  have hkeeps := r.path.relates
    (R := fun s t => ∀ q, s.unix.bound k = some q → t.unix.bound k = some q)
  intro x hx q hq
  have hfinal := (hkeeps (fun s q hs => hs) (fun s t u hst htu q hs => htu q (hst q hs))
    (fun y hy q hs => ?_) x hx).1 q hq
  · exact Option.some.inj (hfinal.symm.trans bound)
  · obtain ⟨he, hnext⟩ := guarded_step.mp (r.path.step_of_mem hy)
    have hdrained := UnixServer.Drained.of_reachable (r.reachable_of_mem hy).1
    rw [← hnext]
    exact (UnixServer.next_bound hdrained.handing.unix he).mpr (.inr hs)

theorem hands_of_run (r : Run unixMachine) (bound : r.final.unix.bound k = some p) :
    ((r.transitions.filterMap fun x => x.label.hands k) ++ r.final.ahead k p).Sublist
        (r.transitions.filterMap fun x => x.label.comes p) ∧
      ((∀ x ∈ r.transitions, ¬ x.source.Loses k p x.label) →
        (r.transitions.filterMap fun x => x.label.hands k) ++ r.final.ahead k p =
          r.transitions.filterMap fun x => x.label.comes p) := by
  have hflow := r.path.flow_unless (fun s => s.ahead k p) (fun x => (x.label.hands k).toList)
    (fun x => (x.label.comes p).toList) (fun x => x.source.Loses k p x.label) fun x hx => by
      obtain ⟨he, hnext⟩ := guarded_step.mp (r.path.step_of_mem hx)
      have hdrained := UnixServer.Drained.of_reachable (r.reachable_of_mem hx).1
      rw [← hnext]
      exact UnixServer.ahead_next hdrained.handing he (bound_of_final r bound x hx)
  have hstart : r.start.ahead k p = [] := by
    rw [show r.start = .new from r.starts]
    rfl
  rw [hstart, List.nil_append] at hflow
  simpa only [List.filterMap_eq_flatMap_toList] using hflow

theorem gets_of_run (r : Run unixMachine) (k : ℕ) (p : UInt16) :
    ((r.transitions.filterMap fun x => x.label.gets k) ++ r.final.inHand k).Sublist
        (r.transitions.filterMap fun x => x.label.hands k) ∧
      ((∀ x ∈ r.transitions, ¬ x.source.Loses k p x.label) →
        (r.transitions.filterMap fun x => x.label.gets k) ++ r.final.inHand k =
          r.transitions.filterMap fun x => x.label.hands k) := by
  have hflow := r.path.flow_unless (fun s => s.inHand k) (fun x => (x.label.gets k).toList)
    (fun x => (x.label.hands k).toList) (fun x => x.source.Loses k p x.label) fun x hx => by
      obtain ⟨he, hnext⟩ := guarded_step.mp (r.path.step_of_mem hx)
      rw [← hnext]
      exact UnixServer.inHand_next (.of_reachable (r.reachable_of_mem hx).1) he p
  have hstart : r.start.inHand k = [] := by
    rw [show r.start = .new from r.starts]
    rfl
  rw [hstart, List.nil_append] at hflow
  simpa only [List.filterMap_eq_flatMap_toList] using hflow

/-- A client gets frames for its port in the order in which they come from the network, each at
most once; where none is lost, it has got the first of them and the others are under way. -/
theorem downstream_in_order (r : Run unixMachine) (bound : r.final.unix.bound k = some p) :
    (r.transitions.filterMap fun x => x.label.gets k).Sublist
        (r.transitions.filterMap fun x => x.label.comes p) ∧
      ((∀ x ∈ r.transitions, ¬ x.source.Loses k p x.label) →
        (r.transitions.filterMap fun x => x.label.gets k) ++ (r.final.inHand k ++
          r.final.ahead k p) = r.transitions.filterMap fun x => x.label.comes p) := by
  obtain ⟨hhands, hhands_eq⟩ := hands_of_run r bound
  obtain ⟨hgets, hgets_eq⟩ := gets_of_run r k p
  constructor
  · have hout := (List.sublist_append_left _ _).trans hgets
    exact hout.trans ((List.sublist_append_left _ _).trans hhands)
  · intro kept
    rw [← List.append_assoc, hgets_eq kept, hhands_eq kept]

/-- A client of port 7 gets the first of two frames that come for it. -/
theorem downstream_in_order_client : ∃ r : Run unixMachine,
    (r.transitions.filterMap fun x => x.label.gets 0) = [.data ⟨.replicate 32 1⟩ 5 [9]] ∧
      (r.transitions.filterMap fun x => x.label.gets 0).Sublist
        (r.transitions.filterMap fun x => x.label.comes 7) := by
  let tuple : Delivery := ⟨⟨.replicate 32 1⟩, 5, 7, [9]⟩
  let later : Delivery := ⟨⟨.replicate 32 1⟩, 5, 7, [4]⟩
  obtain ⟨r, -, hlabels, hfinal⟩ := exec_final (M := unixMachine) rfl (bindEvents 0 7 ++
    [.enqueue tuple, .enqueue later, .deliver tuple, .handed 0 (localFrame tuple),
      .takeFrame 0 (localFrame tuple), .written 0 (localFrame tuple)])
    (p := fun s => decide (s.unix.bound 0 = some 7)) (by decide +kernel)
  have hgets : (r.transitions.filterMap fun x => x.label.gets 0) =
      (r.transitions.map Transition.label).filterMap (UnixEvent.gets 0) := by
    rw [List.filterMap_map]
    rfl
  refine ⟨r, ?_, (downstream_in_order r (of_decide_eq_true hfinal)).1⟩
  rw [hgets, hlabels]
  rfl

end Runs

end Uip
