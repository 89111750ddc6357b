import Uip.ItemPipelines
import Uip.WorldAddressing

/-! What a client sends to a port of another host over one connection is not overtaken by what it
sends there later, unless the records of the connection overtake each other. -/
namespace Uip
open TransitionSystem ItemQueues Transport

variable {w : Wiring} {pack : MessagePack}

def Unix.Frame.dataTo (B : Identifier) (p : UInt16) : Unix.Frame → Option Bytes
  | .data hostId dstPort d => if hostId = B ∧ dstPort = p then some d else none
  | _ => none

/-- The item is one of `frames`, those of the client `k` of `A`, with data to the port `p` of
`B`. -/
def sentTo (frames : List Unix.Frame) (A B : Identifier) (k : ℕ) (p : UInt16) : Number → Bool
  | .client h k' i => decide (h = A ∧ k' = k) && (frames[i]?.bind (Unix.Frame.dataTo B p)).isSome
  | .daemon .. => false

/-- The stops between a client of `A` and a client of `B`, over the connection whose end at `A` is
`e`. -/
def Wiring.line (w : Wiring) (A B : Identifier) (k e j : ℕ) : List Place :=
  [.stream B j, .channel B j, .handing B, .networkToUnix B, .networkSource B,
    .delivering B (w.socket (w.peer e)), .deliverFrame B (w.socket (w.peer e)),
    .reading (w.peer e), .decoded (w.peer e), .flight (w.peer e), .writing e, .sink e,
    .unixToNetwork A, .unixSource A, .unixRead A k, .inbox A k]

theorem Wiring.line_nodup (w : Wiring) (A B : Identifier) (k e j : ℕ) :
    (w.line A B k e j).Nodup := by
  simp [Wiring.line]

theorem Wiring.line_tail_rank (w : Wiring) (A B : Identifier) (k e j : ℕ) :
    ∀ y ∈ (w.line A B k e j).tail, y.rank < 16 := by
  simp [Wiring.line, Place.rank]

theorem Unix.Frame.dataTo_eq_some {B : Identifier} {p : UInt16} {frame : Unix.Frame} {d : Bytes} :
    frame.dataTo B p = some d ↔ frame = .data B p d := by
  cases frame with
  | data hostId dstPort d' =>
    simp only [dataTo, Option.ite_none_right_eq_some, Option.some.injEq, Unix.Frame.data.injEq]
    tauto
  | bind | error => simp [dataTo]

theorem sentTo_iff {frames : List Unix.Frame} {A B : Identifier} {k : ℕ} {p : UInt16}
    {n : Number} : sentTo frames A B k p n = true ↔
      ∃ i d, n = .client A k i ∧ frames[i]? = some (.data B p d) := by
  cases n with
  | daemon => simp [sentTo]
  | client h k' i =>
    simp only [sentTo, Bool.and_eq_true, decide_eq_true_eq, Option.isSome_iff_exists,
      Option.bind_eq_some_iff, Unix.Frame.dataTo_eq_some, Number.client.injEq]
    constructor
    · rintro ⟨⟨rfl, rfl⟩, d, frame, hframe, rfl⟩
      exact ⟨i, d, ⟨rfl, rfl, rfl⟩, hframe⟩
    · rintro ⟨i', d, ⟨rfl, rfl, rfl⟩, hframe⟩
      exact ⟨⟨rfl, rfl⟩, d, _, hframe, rfl⟩

namespace World

variable {s t u : World} {A B : Identifier} {k e j : ℕ} {p : UInt16} {ev : WorldEvent} {n : Number}

section Steps

/-- The items of the flow are at the client `k` or at the connection whose end at the sender is
`e`. -/
def OnWay (w : Wiring) (flow : Number → Bool) (k e : ℕ) : (x : Place) → Number → x.Content → Prop
  | .inbox _ k', n, _ | .unixRead _ k', n, _ => flow n = true → k' = k
  | .sink e', n, _ | .writing e', n, _ => flow n = true → e' = e
  | .flight e', n, _ | .decoded e', n, _ | .reading e', n, _ => flow n = true → e' = w.peer e
  | .deliverFrame _ j, n, _ | .delivering _ j, n, _ => flow n = true → j = w.socket (w.peer e)
  | _, _, _ => True

/-- The flow takes the connection with the end `e`, and none of its records overtakes another. -/
def Orderly (flow : Number → Bool) (e : ℕ) (s : World) : WorldEvent → Prop
  | .send _ e' n => flow n = true → e' = e
  | .arrive e' n => flow n = true → ((numbers s.queue (.flight e')).filter flow).head? = some n
  | _ => True

theorem OnWay.hop {flow : Number → Bool} {x y : Place} {c : x.Content} {c' : y.Content}
    (h : OnWay w flow k e x n c) (hop : s.Hop w x c y c') : OnWay w flow k e y n c' := by
  cases hop with
  | writing => exact fun hn => congrArg w.peer (h hn)
  | reading => exact fun hn => congrArg w.socket (h hn)
  | unixRead | unixSource | delivering | networkSource | networkToUnix | handing | channel =>
    trivial
  | _ => exact h

theorem OnWay.step {flow : Number → Bool} (way : All s.queue (OnWay w flow k e))
    (step : Step w pack s ev t) (client : ∀ n, flow n = true → ∃ h i, n = .client h k i)
    (orderly : s.Orderly flow e ev) : All t.queue (OnWay w flow k e) := by
  have hdaemon : ∀ {e' i : ℕ} {c : Frame}, OnWay w flow k e (.sink e') (.daemon e' i) c := by
    intro e' i c hn
    obtain ⟨h, i', heq⟩ := client _ hn
    cases heq
  cases step with
  | connect | accept | endOfStream => exact way
  | write h k' frame =>
    refine way.push fun hn => ?_
    obtain ⟨h', i', heq⟩ := client _ hn
    exact (Number.client.inj heq).2.1
  | firstFrame | drop | stop | process | lose => exact way.erase _ _
  | pass x m c y c' found hop => exact (way.erase x m).push ((way.of_find found).hop hop)
  | send e' m tuple found remote => exact (way.erase _ m).push orderly
  | arrive e' m f bounded found => exact (way.erase _ m).push (fun hn => way.of_find found hn)
  | answer h j m tuple network reply found => exact (way.erase _ m).push trivial
  | ping | control => exact way.push hdaemon
  | pong | reply => exact (way.erase _ _).push hdaemon

/-- An item of the flow has the form of the tuple it is, unless it waits to be read. -/
theorem Sound.form_of_sentTo (hs : s.Sound w) (hext : Extends s u)
    (hn : sentTo (u.written A k) A B k p n = true) {x : Place} {c : x.Content}
    (found : s.content x n = some c) :
    (∃ sent, s.Routed w A sent x c ∧ sent.hostId = B ∧ sent.dstPort = p) ∨ x = .inbox A k := by
  obtain ⟨i, d, rfl, hframe⟩ := sentTo_iff.mp hn
  rcases hs.traced.of_find found A k i rfl with hunread | ⟨sent, hsent, hrouted⟩
  · cases x with
    | inbox h k' =>
      obtain ⟨rfl, rfl, -⟩ := hunread
      exact .inr rfl
    | _ => exact hunread.elim
  · have hsame := Option.some.inj ((hext.written _ _ _ _ hsent.1).symm.trans hframe)
    obtain ⟨hhost, hport, -⟩ := Unix.Frame.data.inj hsame
    exact .inl ⟨sent, hrouted, hhost, hport⟩

theorem Routed.host {sent : Delivery} {x : Place} {c : x.Content}
    (h : s.Routed w A sent x c) (right : w.RightIdentities A sent.hostId) : match x with
      | .deliverFrame B _ | .delivering B _ | .networkSource B | .networkToUnix B | .handing B
      | .channel B _ | .stream B _ => B = sent.hostId
      | _ => True := by
  cases x with
  | deliverFrame | delivering | networkSource | networkToUnix | handing | channel | stream =>
    obtain ⟨e, hl, hh, -⟩ := h
    exact hh.symm.trans (hl.right right).1
  | _ => trivial

/-- An item of the flow hops to the next stop, or leaves for another client. -/
theorem Sound.follows (hs : s.Sound w) (right : w.RightIdentities A B) (hext : Extends s u)
    (hn : sentTo (u.written A k) A B k p n = true) {x y : Place} {c : x.Content} {c' : y.Content}
    (way : OnWay w (sentTo (u.written A k) A B k p) k e x n c) (found : s.content x n = some c)
    (hop : s.Hop w x c y c') : Follows (w.line A B k e j) x y ∨ y ∉ w.line A B k e j := by
  have hform := hs.form_of_sentTo hext hn found
  cases hop with
  | inbox h k' =>
    obtain ⟨rfl, rfl⟩ : h = A ∧ k' = k := by simpa [Routed] using hform
    exact .inl ⟨14, rfl, rfl⟩
  | unixRead h k' =>
    obtain ⟨sent, ⟨rfl, -⟩, -⟩ := hform.resolve_right (by simp)
    obtain rfl := way hn
    exact .inl ⟨13, rfl, rfl⟩
  | unixSource h =>
    obtain ⟨sent, ⟨rfl, -⟩, -⟩ := hform.resolve_right (by simp)
    exact .inl ⟨12, rfl, rfl⟩
  | sink e' =>
    obtain rfl := way hn
    exact .inl ⟨10, rfl, rfl⟩
  | writing e' =>
    obtain rfl := way hn
    exact .inl ⟨9, rfl, rfl⟩
  | decoded e' =>
    obtain rfl := way hn
    exact .inl ⟨7, rfl, rfl⟩
  | reading e' =>
    obtain rfl := way hn
    obtain ⟨sent, ⟨hl, -⟩, rfl, -⟩ := hform.resolve_right (by simp)
    rw [(hl.right right).1]
    exact .inl ⟨6, rfl, rfl⟩
  | deliverFrame h j' =>
    obtain rfl := way hn
    obtain ⟨sent, hrouted, hB, -⟩ := hform.resolve_right (by simp)
    rw [(hrouted.host (hB ▸ right)).trans hB]
    exact .inl ⟨5, rfl, rfl⟩
  | delivering h j' =>
    obtain rfl := way hn
    obtain ⟨sent, hrouted, hB, -⟩ := hform.resolve_right (by simp)
    rw [(hrouted.host (hB ▸ right)).trans hB]
    exact .inl ⟨4, rfl, rfl⟩
  | networkSource h =>
    obtain ⟨sent, hrouted, hB, -⟩ := hform.resolve_right (by simp)
    rw [(hrouted.host (hB ▸ right)).trans hB]
    exact .inl ⟨3, rfl, rfl⟩
  | networkToUnix h =>
    obtain ⟨sent, hrouted, hB, -⟩ := hform.resolve_right (by simp)
    rw [(hrouted.host (hB ▸ right)).trans hB]
    exact .inl ⟨2, rfl, rfl⟩
  | handing h k' =>
    obtain ⟨sent, hrouted, hB, -⟩ := hform.resolve_right (by simp)
    rw [(hrouted.host (hB ▸ right)).trans hB]
    by_cases hj : k' = j
    · subst hj
      exact .inl ⟨1, rfl, rfl⟩
    · exact .inr (by simp [Wiring.line, hj])
  | channel h k' =>
    obtain ⟨sent, hrouted, hB, -⟩ := hform.resolve_right (by simp)
    rw [(hrouted.host (hB ▸ right)).trans hB]
    by_cases hj : k' = j
    · subst hj
      exact .inl ⟨0, rfl, rfl⟩
    · exact .inr (by simp [Wiring.line, hj])

/-- A step adds at most a frame that is just written, behind all others. -/
theorem Step.contents (hs : s.Sound w) (right : w.RightIdentities A B)
    (he : s.enabled w pack ev) (step : Step w pack s ev t) (hext : Extends t u)
    (way : All s.queue (OnWay w (sentTo (u.written A k) A B k p) k e))
    (orderly : s.Orderly (sentTo (u.written A k) A B k p) e ev) (j : ℕ) :
    (contents (sentTo (u.written A k) A B k p) (w.line A B k e j) t.queue).Sublist
        (contents (sentTo (u.written A k) A B k p) (w.line A B k e j) s.queue) ∨
      (contents (sentTo (u.written A k) A B k p) (w.line A B k e j) t.queue =
        contents (sentTo (u.written A k) A B k p) (w.line A B k e j) s.queue ++
          [.client A k (s.written A k).length] ∧
        (t.written A k).length = (s.written A k).length + 1) := by
  have hsu : Extends s u := (step.extends hs.valid).trans hext
  have hnodup := w.line_nodup A B k e j
  cases step with
  | connect | accept | endOfStream => exact .inl (List.Sublist.refl _)
  | write h k' frame =>
    cases hn : sentTo (u.written A k) A B k p (.client h k' (s.written h k').length) with
    | false =>
      left
      simp only [contents_push_of_not hn]
      exact List.Sublist.refl _
    | true =>
      obtain ⟨i, d, heq, -⟩ := sentTo_iff.mp hn
      obtain ⟨rfl, rfl, -⟩ := Number.client.inj heq
      have hline : w.line h B k' e j = (w.line h B k' e j).dropLast ++ [.inbox h k'] := rfl
      have hlast : Place.inbox h k' ∉ (w.line h B k' e j).dropLast := by simp [Wiring.line]
      have hpush := contents_push_start (q := s.queue) hlast hn frame
      rw [← hline] at hpush
      exact .inr ⟨hpush, by simp⟩
  | firstFrame | drop | stop | process | lose => exact .inl (contents_erase_sublist _ _)
  | pass x m c y c' found hop =>
    refine .inl (contents_pass hnodup (fun hn => ?_) c')
    refine (hs.follows right hsu hn (way.of_find found) found hop).imp_left fun hfollows => ?_
    exact ⟨hfollows, head_filter he.1 hn⟩
  | send e' m tuple found remote =>
    refine .inl (contents_pass hnodup (fun hn => .inl ?_) _)
    obtain ⟨sent, ⟨hA, -⟩, -⟩ := (hs.form_of_sentTo hsu hn found).resolve_right (by simp)
    obtain rfl := orderly hn
    rw [hA]
    exact ⟨⟨11, rfl, rfl⟩, head_filter (hA ▸ he.1) hn⟩
  | arrive e' m f bounded found =>
    refine .inl (contents_pass hnodup (fun hn => .inl ?_) _)
    obtain rfl := way.of_find found hn
    exact ⟨⟨8, rfl, rfl⟩, orderly hn⟩
  | answer h j' m tuple network reply found =>
    exact .inl (contents_pass hnodup (fun _ => .inr (by simp [Wiring.line])) _)
  | ping | control =>
    left
    simp only [World.issue, contents_push_of_not (show sentTo _ A B k p (.daemon _ _) = _ from rfl)]
    exact List.Sublist.refl _
  | pong | reply =>
    left
    simp only [World.issue, contents_push_of_not (show sentTo _ A B k p (.daemon _ _) = _ from rfl)]
    exact contents_erase_sublist _ _

end Steps

section Runs

/-- In this run the data of the client `k` of `A` to the port `p` of `B` takes the connection whose
end at `A` is `e`, and no record of it overtakes another. -/
def InOrder (r : Run (worldMachine w pack)) (A B : Identifier) (k : ℕ) (p : UInt16) (e : ℕ) :
    Prop :=
  ∀ x ∈ r.transitions, x.source.Orderly (sentTo (r.final.written A k) A B k p) e x.label

/-- What the client `j` of `B` has received of the data of the client `k` of `A` to the port
`p`. -/
def receivedFrames (s : World) (A B : Identifier) (k j : ℕ) (p : UInt16) : List Unix.Frame :=
  ((s.queue (.stream B j)).filter fun item => sentTo (s.written A k) A B k p item.number).map
    Item.content

/-- What is to be received of what the client `k` of `A`, bound to `srcPort`, has written. -/
def sentFrames (s : World) (A B : Identifier) (k : ℕ) (srcPort p : UInt16) : List Unix.Frame :=
  ((s.written A k).filterMap (Unix.Frame.dataTo B p)).map (.data A srcPort)

def writtenNumbers (s : World) (A : Identifier) (k : ℕ) : List Number :=
  (List.range (s.written A k).length).map (.client A k)

def sentFrame (s : World) (A B : Identifier) (k : ℕ) (srcPort p : UInt16) :
    Number → Option Unix.Frame
  | .client _ _ i => ((s.written A k)[i]?.bind (Unix.Frame.dataTo B p)).map (.data A srcPort)
  | .daemon .. => none

theorem filterMap_range {α β : Type*} (f : α → Option β) (items : List α) :
    (List.range items.length).filterMap (fun i => items[i]?.bind f) = items.filterMap f := by
  have hsome : (List.range items.length).map (fun i => items[i]?) = items.map some := by
    apply List.ext_getElem
    · simp
    · intro i h _
      simp
  have hmap := congrArg (List.filterMap fun a => a.bind f) hsome
  rw [List.filterMap_map, List.filterMap_map] at hmap
  exact hmap

theorem sentFrames_eq (s : World) (A B : Identifier) (k : ℕ) (srcPort p : UInt16) :
    (s.writtenNumbers A k).filterMap (s.sentFrame A B k srcPort p) =
      s.sentFrames A B k srcPort p := by
  have hrange := filterMap_range (fun frame =>
    (Unix.Frame.dataTo B p frame).map (Unix.Frame.data A srcPort)) (s.written A k)
  rw [writtenNumbers, List.filterMap_map, sentFrames, List.map_filterMap, ← hrange]
  refine List.filterMap_congr fun i _ => ?_
  rw [Function.comp_apply, sentFrame, Option.map_bind]
  rfl

theorem Extends.writtenNumbers (h : Extends s t) (A : Identifier) (k : ℕ) :
    (s.writtenNumbers A k).Sublist (t.writtenNumbers A k) := by
  have hlen : (s.written A k).length ≤ (t.written A k).length := by
    by_contra hlt
    have hlast := List.getElem?_eq_getElem (Nat.lt_of_not_le hlt)
    have hlater := (List.getElem?_eq_some_iff.mp (h.written A k _ _ hlast)).1
    omega
  exact (List.range_sublist.mpr hlen).map _

theorem filterMap_sentTo (s : World) (A B : Identifier) (k : ℕ) (srcPort p : UInt16) :
    ((s.writtenNumbers A k).filter (sentTo (s.written A k) A B k p)).filterMap
        (s.sentFrame A B k srcPort p) =
      (s.writtenNumbers A k).filterMap (s.sentFrame A B k srcPort p) := by
  rw [List.filterMap_filter]
  refine List.filterMap_congr fun n hn => ?_
  obtain ⟨i, -, rfl⟩ := List.mem_map.mp hn
  cases hd : (s.written A k)[i]?.bind (Unix.Frame.dataTo B p) <;> simp [sentTo, sentFrame, hd]

/-- What is under way is in the order in which it was written. -/
theorem contents_of_run (r : Run (worldMachine w pack)) (right : w.RightIdentities A B)
    (order : InOrder r A B k p e) (j : ℕ) :
    All r.final.queue (OnWay w (sentTo (r.final.written A k) A B k p) k e) ∧
      (contents (sentTo (r.final.written A k) A B k p) (w.line A B k e j) r.final.queue).Sublist
        (r.final.writtenNumbers A k) := by
  apply r.path.carries (P := fun u =>
    All u.queue (OnWay w (sentTo (r.final.written A k) A B k p) k e) ∧
      (contents (sentTo (r.final.written A k) A B k p) (w.line A B k e j) u.queue).Sublist
        (u.writtenNumbers A k))
  · obtain ⟨network, hr⟩ := r.starts
    rw [hr]
    refine ⟨fun x item hi => by simp [World.new, empty] at hi, ?_⟩
    have hnone : contents (sentTo (r.final.written A k) A B k p) (w.line A B k e j)
        (World.new network).queue = [] := by
      simp [contents, numbers, World.new, empty]
    rw [hnone]
    exact List.nil_sublist _
  · rintro x hx ⟨hway, hcontents⟩
    obtain ⟨hs, step, -, hext⟩ := (sound_of_mem r).2 x hx
    obtain ⟨he, -⟩ := guarded_step.mp (r.path.step_of_mem hx)
    have hclient : ∀ n, sentTo (r.final.written A k) A B k p n = true →
        ∃ h i, n = .client h k i := by
      intro n hn
      obtain ⟨i, _, rfl, -⟩ := sentTo_iff.mp hn
      exact ⟨A, i, rfl⟩
    refine ⟨OnWay.step hway step hclient (order x hx), ?_⟩
    have hwritten := (step.extends hs.valid).writtenNumbers A k
    rcases step.contents hs right he hext hway (order x hx) j with hsub | ⟨hnew, hlen⟩
    · exact (hsub.trans hcontents).trans hwritten
    · rw [hnew, writtenNumbers, hlen, List.range_succ, List.map_append, List.map_singleton]
      exact hcontents.append_right _

theorem sentFrame_of_item (hs : s.Sound w) (right : w.RightIdentities A B) {srcPort : UInt16}
    (client : (s.unix A).bound k = some srcPort) {item : Item Number Unix.Frame}
    (hitem : item ∈ s.queue (.stream B j))
    (hn : sentTo (s.written A k) A B k p item.number = true) :
    s.sentFrame A B k srcPort p item.number = some item.content := by
  obtain ⟨n, frame⟩ := item
  obtain ⟨i, d, rfl, hframe⟩ := sentTo_iff.mp hn
  have hsends : s.Sends A k i ⟨B, srcPort, p, d⟩ := ⟨hframe, client⟩
  obtain ⟨-, rfl, -⟩ := hs.received right hsends (.inr hitem)
  have hdata := Unix.Frame.dataTo_eq_some.mpr (rfl : Unix.Frame.data B p d = .data B p d)
  simp [sentFrame, hframe, hdata]

theorem receivedFrames_eq (hs : s.Sound w) (right : w.RightIdentities A B) {srcPort : UInt16}
    (client : (s.unix A).bound k = some srcPort) : s.receivedFrames A B k j p =
      ((numbers s.queue (.stream B j)).filter (sentTo (s.written A k) A B k p)).filterMap
        (s.sentFrame A B k srcPort p) := by
  rw [numbers, List.filter_map, List.filterMap_map, receivedFrames, ← List.filterMap_eq_map]
  refine List.filterMap_congr fun item hi => ?_
  obtain ⟨hitem, hn⟩ := List.mem_filter.mp hi
  exact (sentFrame_of_item hs right client hitem hn).symm

/-- What a client receives of the data that another sends over one connection comes in the order
in which it was sent, and nothing of it comes twice. -/
theorem data_in_order (r : Run (worldMachine w pack)) (right : w.RightIdentities A B)
    {srcPort : UInt16} (client : (r.final.unix A).bound k = some srcPort)
    (order : InOrder r A B k p e) (j : ℕ) :
    (r.final.receivedFrames A B k j p).Sublist (r.final.sentFrames A B k srcPort p) := by
  obtain ⟨-, hcontents⟩ := contents_of_run r right order j
  rw [receivedFrames_eq (sound_of_mem r).1 right client, ← sentFrames_eq]
  have hstream : ((numbers r.final.queue (.stream B j)).filter
      (sentTo (r.final.written A k) A B k p)).Sublist
        (contents (sentTo (r.final.written A k) A B k p) (w.line A B k e j) r.final.queue) :=
    List.sublist_append_left _ _
  exact (hstream.trans hcontents).filterMap _

theorem Sound.mem_line (hs : s.Sound w) (right : w.RightIdentities A B) {srcPort : UInt16}
    (client : (s.unix A).bound k = some srcPort) (ports : ¬ (srcPort = 0 ∧ p = 0))
    (single : ∀ j', (s.unix B).bound j' = some p → j' = j)
    (hn : sentTo (s.written A k) A B k p n = true) {x : Place} {c : x.Content}
    (way : OnWay w (sentTo (s.written A k) A B k p) k e x n c) (found : s.content x n = some c) :
    x ∈ w.line A B k e j := by
  obtain ⟨i, d, rfl, hframe⟩ := sentTo_iff.mp hn
  have hsends : s.Sends A k i ⟨B, srcPort, p, d⟩ := ⟨hframe, client⟩
  rcases hs.form (Extends.refl s) hsends found with hrouted | hinbox
  · have hhost := hrouted.host right
    cases x with
    | inbox => exact hrouted.elim
    | unixRead h k' =>
      obtain rfl := way hn
      simp [Wiring.line, hrouted.1]
    | unixSource h | unixToNetwork h => simp [Wiring.line, hrouted.1]
    | sink e' | writing e' | flight e' | decoded e' | reading e' =>
      obtain rfl := way hn
      simp [Wiring.line]
    | deliverFrame h j' | delivering h j' =>
      obtain rfl := way hn
      simp [Wiring.line, hhost]
    | networkSource h | networkToUnix h | handing h => simp [Wiring.line, hhost]
    | replying h j' =>
      obtain ⟨e', -, -, hcontrol⟩ := hrouted
      exact absurd hcontrol ports
    | channel h j' | stream h j' =>
      have hB : h = B := hhost
      subst hB
      obtain ⟨e', -, -, -, hbound⟩ := hrouted
      obtain rfl := single j' hbound
      simp [Wiring.line]
  · cases hinbox
    simp [Wiring.line]

/-- Where nothing is lost, the data of the client is between the two clients, in its order. -/
theorem contents_of_kept (r : Run (worldMachine w pack)) (right : w.RightIdentities A B)
    {srcPort : UInt16} (client : (r.final.unix A).bound k = some srcPort)
    (ports : ¬ (srcPort = 0 ∧ p = 0)) (order : InOrder r A B k p e)
    (single : ∀ j', (r.final.unix B).bound j' = some p → j' = j)
    (kept : ∀ (i : ℕ) d, (r.final.written A k)[i]? = some (.data B p d) →
      ∀ x ∈ r.transitions, ¬ Loses w B ⟨B, srcPort, p, d⟩ (.client A k i) x) :
    contents (sentTo (r.final.written A k) A B k p) (w.line A B k e j) r.final.queue =
      (r.final.writtenNumbers A k).filter (sentTo (r.final.written A k) A B k p) := by
  obtain ⟨hway, hsub⟩ := contents_of_run r right order j
  have hs := (sound_of_mem r).1
  have hflow : (contents (sentTo (r.final.written A k) A B k p) (w.line A B k e j)
      r.final.queue).filter (sentTo (r.final.written A k) A B k p) =
        contents (sentTo (r.final.written A k) A B k p) (w.line A B k e j) r.final.queue :=
    List.filter_eq_self.mpr fun m hm => (mem_contents.mp hm).1
  have hfiltered := hsub.filter (sentTo (r.final.written A k) A B k p)
  rw [hflow] at hfiltered
  have hnodup : ((r.final.writtenNumbers A k).filter
      (sentTo (r.final.written A k) A B k p)).Nodup := by
    refine (List.Nodup.map ?_ List.nodup_range).filter _
    exact fun a b hab => (Number.client.inj hab).2.2
  refine hfiltered.eq_of_length_le (List.subperm_of_subset hnodup fun m hm => ?_).length_le
  have hm := (List.mem_filter.mp hm).2
  obtain ⟨i, d, rfl, hframe⟩ := sentTo_iff.mp hm
  have hsends : r.final.Sends A k i ⟨B, srcPort, p, d⟩ := ⟨hframe, client⟩
  obtain ⟨y, hy⟩ := somewhere_of_sends r right (by exact ports) hsends (kept i d hframe)
  obtain ⟨c, found⟩ := Option.isSome_iff_exists.mp (find_isSome.mpr hy)
  have hline := hs.mem_line right client ports single hm (hway.of_find found) found
  exact mem_contents.mpr ⟨hm, y, hline, hy⟩

theorem sentFrames_of_kept (r : Run (worldMachine w pack)) (right : w.RightIdentities A B)
    {srcPort : UInt16} (client : (r.final.unix A).bound k = some srcPort)
    (ports : ¬ (srcPort = 0 ∧ p = 0)) (order : InOrder r A B k p e)
    (single : ∀ j', (r.final.unix B).bound j' = some p → j' = j)
    (kept : ∀ (i : ℕ) d, (r.final.written A k)[i]? = some (.data B p d) →
      ∀ x ∈ r.transitions, ¬ Loses w B ⟨B, srcPort, p, d⟩ (.client A k i) x) :
    r.final.receivedFrames A B k j p ++
      (contents (sentTo (r.final.written A k) A B k p) (w.line A B k e j).tail
        r.final.queue).filterMap (r.final.sentFrame A B k srcPort p) =
          r.final.sentFrames A B k srcPort p := by
  have hcontents := contents_of_kept r right client ports order single kept
  rw [receivedFrames_eq (sound_of_mem r).1 right client, ← List.filterMap_append, Wiring.line,
    List.tail_cons, ← contents_cons, ← Wiring.line, hcontents, filterMap_sentTo, sentFrames_eq]

theorem contents_tail_of_absent {s : World} {q : Number → Bool}
    (absent : ∀ y ∈ (w.line A B k e j).tail, ∀ n ∈ numbers s.queue y, q n = false) :
    contents q (w.line A B k e j).tail s.queue = [] := by
  rw [List.eq_nil_iff_forall_not_mem]
  intro m hm
  obtain ⟨hp, y, hy, hmem⟩ := mem_contents.mp hm
  simp [absent y hy m hmem] at hp

/-- Where nothing is lost, the client has received the first part of what was sent, and all of it
once nothing is under way. -/
theorem data_complete (r : Run (worldMachine w pack)) (right : w.RightIdentities A B)
    {srcPort : UInt16} (client : (r.final.unix A).bound k = some srcPort)
    (ports : ¬ (srcPort = 0 ∧ p = 0)) (order : InOrder r A B k p e)
    (single : ∀ j', (r.final.unix B).bound j' = some p → j' = j)
    (kept : ∀ (i : ℕ) d, (r.final.written A k)[i]? = some (.data B p d) →
      ∀ x ∈ r.transitions, ¬ Loses w B ⟨B, srcPort, p, d⟩ (.client A k i) x) :
    r.final.receivedFrames A B k j p <+: r.final.sentFrames A B k srcPort p ∧
      ((∀ y, y.rank < 16 → ∀ n ∈ numbers r.final.queue y,
          sentTo (r.final.written A k) A B k p n = false) →
        r.final.receivedFrames A B k j p = r.final.sentFrames A B k srcPort p) := by
  have hsent := sentFrames_of_kept r right client ports order single kept
  rw [← hsent]
  refine ⟨List.prefix_append _ _, fun quiet => ?_⟩
  rw [contents_tail_of_absent fun y hy => quiet y (w.line_tail_rank A B k e j y hy),
    List.filterMap_nil, List.append_nil]

end Runs

end World

section Pair
open World (InOrder)

/-- Two frames of a client of `nearHost`, the first of which a client of `farHost` has received. -/
def pairFrames : List Unix.Frame := [.bind 5, .data farHost 7 [9], .data farHost 7 [4]]

def pairEvents : List WorldEvent :=
  binding nearHost 0 5 ++ binding farHost 0 7 ++ sending 1 7 [9] ++ forwarding 1 0 ++
    sending 2 7 [4]

def pairFlow : Number → Bool := sentTo pairFrames nearHost farHost 0 7

def pairTest (s : World) : WorldEvent → Bool
  | .send _ e n => !pairFlow n || decide (e = 0)
  | .arrive e n =>
    !pairFlow n || decide (((numbers s.queue (.flight e)).filter pairFlow).head? = some n)
  | .advance (.networkToUnix h) _ => ((s.unix h).connections.lookup 7).isSome
  | .lose .. => false
  | _ => true

theorem orderly_of_pairTest {s : World} {ev : WorldEvent} (h : pairTest s ev = true) :
    s.Orderly pairFlow 0 ev := by
  cases ev with
  | send _ e n | arrive e n =>
    intro hn
    simpa [pairTest, hn] using h
  | _ => trivial

theorem not_loses_of_pairTest {x : Transition World WorldEvent} {i : ℕ} {d : Bytes}
    (h : pairTest x.source x.label = true) (hd : pairFrames[i]? = some (.data farHost 7 d)) :
    ¬ World.Loses pairWiring farHost ⟨farHost, 5, 7, d⟩ (.client nearHost 0 i) x := by
  rintro (⟨y, hl⟩ | ⟨e, -, hlong⟩ | ⟨hl, hlookup⟩)
  · simp [hl, pairTest] at h
  · have hshort : d.length = 1 := by
      match i with
      | 0 => cases hd
      | 1 | 2 =>
        obtain ⟨-, -, rfl⟩ := Unix.Frame.data.inj (Option.some.inj hd)
        rfl
      | i + 3 => cases hd
    rw [Codec.encoding_data, List.length_append, hshort] at hlong
    simp [pairWiring, Codec.header] at hlong
  · simp [hl, pairTest] at h
    simp [hlookup] at h

theorem pair_run : ∃ r : Run (worldMachine pairWiring (.ofTable [])),
    (r.final.unix nearHost).bound 0 = some 5 ∧ InOrder r nearHost farHost 0 7 0 ∧
      (∀ j, (r.final.unix farHost).bound j = some 7 → j = 0) ∧
      (∀ (i : ℕ) d, (r.final.written nearHost 0)[i]? = some (.data farHost 7 d) →
        ∀ x ∈ r.transitions, ¬ World.Loses pairWiring farHost ⟨farHost, 5, 7, d⟩
          (.client nearHost 0 i) x) ∧
      r.final.receivedFrames nearHost farHost 0 0 7 = [.data nearHost 5 [9]] := by
  have hrun : (exec ((worldMachine pairWiring (.ofTable [])).restrict pairTest)
      (.new emptyNetwork) pairEvents).any (fun t =>
        decide ((t.unix nearHost).bound 0 = some 5 ∧ t.written nearHost 0 = pairFrames ∧
          (t.unix farHost).nextClient = 1 ∧
          t.receivedFrames nearHost farHost 0 0 7 = [.data nearHost 5 [9]])) = true := by
    decide +kernel
  have hinit : (worldMachine pairWiring (.ofTable [])).init (.new emptyNetwork) :=
    ⟨emptyNetwork, rfl⟩
  obtain ⟨r, htest, hfinal⟩ := exec_final_tested hinit _ hrun
  obtain ⟨hbound, hwritten, hnext, hreceived⟩ := of_decide_eq_true hfinal
  refine ⟨r, hbound, fun x hx => ?_, fun j hj => ?_, fun i d hd x hx => ?_, hreceived⟩
  · rw [hwritten]
    exact orderly_of_pairTest (htest x hx)
  · have hvalid := (World.sound_of_mem r).1.valid farHost
    by_contra hne
    have habsent := hvalid.absent j (by omega)
    simp [UnixState.bound_of_connected habsent] at hj
  · exact not_loses_of_pairTest (htest x hx) (hwritten ▸ hd)

theorem data_in_order_pair : ∃ r : Run (worldMachine pairWiring (.ofTable [])),
    r.final.receivedFrames nearHost farHost 0 0 7 = [.data nearHost 5 [9]] ∧
      ([.data nearHost 5 [9]]).Sublist (r.final.sentFrames nearHost farHost 0 5 7) := by
  obtain ⟨r, hbound, order, -, -, hreceived⟩ := pair_run
  exact ⟨r, hreceived, hreceived ▸ World.data_in_order r pairWiring_right hbound order 0⟩

theorem data_complete_pair : ∃ r : Run (worldMachine pairWiring (.ofTable [])),
    [.data nearHost 5 [9]] <+: r.final.sentFrames nearHost farHost 0 5 7 := by
  obtain ⟨r, hbound, order, single, kept, hreceived⟩ := pair_run
  have hcomplete := World.data_complete r pairWiring_right hbound (by decide) order single kept
  exact ⟨r, hreceived ▸ hcomplete.1⟩

end Pair

end Uip
