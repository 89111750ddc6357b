import Uip.TransportFraming
import Uip.World

/-! What a step of the world does, event by event, once records are known to carry one frame
each. -/
namespace Uip
open TransitionSystem ItemQueues Transport

variable {w : Wiring} {pack : MessagePack}

namespace World

def isEncoding : (x : Place) → Number → x.Content → Prop
  | .flight _, _, record => ∃ f, Codec.Bounded f ∧ record = Codec.encoding f
  | _, _, _ => True

/-- Every record carries one frame, and no end keeps bytes of a record. -/
structure Framed (s : World) : Prop where
  flight : All s.queue isEncoding
  buffer : ∀ e, s.buffer e = []

variable {s : World}

theorem Framed.arrive (h : s.Framed) {e : ℕ} {n : Number} {f : Frame} (hf : Codec.Bounded f) :
    s.arrive e n (Codec.encoding f) = s.pass (.flight e) n (.decoded e) f := by
  have hdrain : StreamDecoder.drain Codec.decode (s.buffer e ++ Codec.encoding f) =
      ⟨[f], .more, []⟩ := by
    rw [h.buffer e, List.nil_append, Codec.drain_encoding hf]
  have hbuffer : Function.update s.buffer e [] = s.buffer := by
    rw [← h.buffer e, Function.update_eq_self]
  simp only [World.arrive, hdrain, hbuffer]
  rfl

/-- What passes from one queue to another without an event of its own. -/
inductive Hop (w : Wiring) (s : World) : (x : Place) → x.Content → (y : Place) → y.Content → Prop
  | inbox (h : Identifier) (k : ℕ) (srcPort : UInt16) (hostId : Identifier) (dstPort : UInt16)
      (data : Bytes) (reads : (s.unix h).clients k = .bound srcPort true) :
      Hop w s (.inbox h k) (.data hostId dstPort data) (.unixRead h k)
        (UnixState.sendFrame hostId srcPort dstPort data)
  | unixRead (h : Identifier) (k : ℕ) (tuple : Delivery) :
      Hop w s (.unixRead h k) tuple (.unixSource h) tuple
  | unixSource (h : Identifier) (tuple : Delivery) :
      Hop w s (.unixSource h) tuple (.unixToNetwork h) tuple
  | sink (e : ℕ) (frame : Frame) : Hop w s (.sink e) frame (.writing e) frame
  | writing (e : ℕ) (frame : Frame) (fits : (Codec.encoding frame).length ≤ w.maxRecord) :
      Hop w s (.writing e) frame (.flight (w.peer e)) (Codec.encoding frame)
  | decoded (e : ℕ) (srcPort dstPort : UInt16) (data : Bytes) :
      Hop w s (.decoded e) (.data srcPort dstPort data) (.reading e)
        ⟨w.remoteId e, srcPort, dstPort, data⟩
  | reading (e : ℕ) (tuple : Delivery) :
      Hop w s (.reading e) tuple (.deliverFrame (w.host e) (w.socket e)) tuple
  | deliverFrame (h : Identifier) (j : ℕ) (tuple : Delivery) :
      Hop w s (.deliverFrame h j) tuple (.delivering h j) tuple
  | delivering (h : Identifier) (j : ℕ) (tuple : Delivery) (data : ¬ tuple.isControl) :
      Hop w s (.delivering h j) tuple (.networkSource h) tuple
  | networkSource (h : Identifier) (tuple : Delivery) :
      Hop w s (.networkSource h) tuple (.networkToUnix h) tuple
  | networkToUnix (h : Identifier) (k : ℕ) (tuple : Delivery)
      (registered : (s.unix h).connections.lookup tuple.dstPort = some k) :
      Hop w s (.networkToUnix h) tuple (.handing h)
        (k, .data tuple.hostId tuple.srcPort tuple.data)
  | handing (h : Identifier) (k : ℕ) (frame : Unix.Frame) :
      Hop w s (.handing h) (k, frame) (.channel h k) frame
  | channel (h : Identifier) (k : ℕ) (frame : Unix.Frame) :
      Hop w s (.channel h k) frame (.stream h k) frame

/-- What is dropped: a record that is too long, a pong, and data for a port of no client. -/
inductive Drops (w : Wiring) (s : World) : (x : Place) → x.Content → Prop
  | writing (e : ℕ) (frame : Frame) (long : w.maxRecord < (Codec.encoding frame).length) :
      Drops w s (.writing e) frame
  | decoded (e : ℕ) : Drops w s (.decoded e) .pong
  | networkToUnix (h : Identifier) (tuple : Delivery)
      (unregistered : (s.unix h).connections.lookup tuple.dstPort = none) :
      Drops w s (.networkToUnix h) tuple

/-- What ends the read task of a client: a frame that is not data. -/
inductive Stops (s : World) : (x : Place) → x.Content → Identifier → ℕ → Prop
  | inbox (h : Identifier) (k : ℕ) (srcPort : UInt16) (frame : Unix.Frame)
      (reads : (s.unix h).clients k = .bound srcPort true)
      (unhandled : ∀ hostId dstPort data, frame ≠ .data hostId dstPort data) :
      Stops s (.inbox h k) frame h k

def Allows (w : Wiring) (s : World) (x : Place) (c : x.Content) : Effect → Prop
  | .pass y c' => s.Hop w x c y c'
  | .drop => s.Drops w x c
  | .stop h k => s.Stops x c h k
  | .stuck => True

theorem allows_stage (x : Place) (c : x.Content) : s.Allows w x c (s.stage w x c) := by
  cases x with
  | inbox h k =>
    simp only [stage]
    split
    · rename_i srcPort hclient
      cases c with
      | data hostId dstPort data => exact Hop.inbox h k srcPort hostId dstPort data hclient
      | bind port => exact Stops.inbox h k srcPort _ hclient (by simp)
      | error code => exact Stops.inbox h k srcPort _ hclient (by simp)
    · trivial
  | writing e =>
    simp only [stage, Codec.encode_nil]
    split_ifs with hfits
    · exact Hop.writing e c hfits
    · exact Drops.writing e c (Nat.lt_of_not_le hfits)
  | decoded e =>
    simp only [stage]
    split_ifs
    · cases c with
      | data srcPort dstPort data => exact Hop.decoded e srcPort dstPort data
      | pong => exact Drops.decoded e
      | ping => trivial
    · trivial
  | deliverFrame h j =>
    simp only [stage]
    split_ifs
    · exact Hop.deliverFrame h j c
    · trivial
  | delivering h j =>
    simp only [stage]
    split_ifs with hcontrol
    · trivial
    · exact Hop.delivering h j c hcontrol
  | networkSource h =>
    simp only [stage]
    split_ifs
    · exact Hop.networkSource h c
    · trivial
  | networkToUnix h =>
    simp only [stage, UnixState.deliverFrame]
    cases hk : (s.unix h).connections.lookup c.dstPort with
    | some k => exact Hop.networkToUnix h k c hk
    | none => exact Drops.networkToUnix h c hk
  | unixRead h k => exact Hop.unixRead h k c
  | unixSource h => exact Hop.unixSource h c
  | sink e => exact Hop.sink e c
  | reading e => exact Hop.reading e c
  | handing h => exact Hop.handing h c.1 c.2
  | channel h k => exact Hop.channel h k c
  | unixToNetwork | flight | replying | stream => trivial

theorem Hop.of_stage {x y : Place} {c : x.Content} {c' : y.Content}
    (h : s.stage w x c = .pass y c') : s.Hop w x c y c' := by
  have hallows := allows_stage (s := s) (w := w) x c
  rwa [h] at hallows

theorem Drops.of_stage {x : Place} {c : x.Content} (h : s.stage w x c = .drop) :
    s.Drops w x c := by
  have hallows := allows_stage (s := s) (w := w) x c
  rwa [h] at hallows

theorem Stops.of_stage {x : Place} {c : x.Content} {h : Identifier} {k : ℕ}
    (hs : s.stage w x c = .stop h k) : s.Stops x c h k := by
  have hallows := allows_stage (s := s) (w := w) x c
  rwa [hs] at hallows

/-- What an enabled event does. -/
inductive Step (w : Wiring) (pack : MessagePack) (s : World) : WorldEvent → World → Prop
  | connect (h : Identifier) :
      Step w pack s (.connect h (s.unix h).nextClient) (s.setUnix h { s.unix h with
        nextClient := (s.unix h).nextClient + 1
        backlog := (s.unix h).backlog ++ [(s.unix h).nextClient] })
  | write (h : Identifier) (k : ℕ) (frame : Unix.Frame) :
      Step w pack s (.write h k (s.written h k).length frame)
        { s with
          queue := push s.queue (.inbox h k) (.client h k (s.written h k).length) frame
          written := Function.update s.written h
            (Function.update (s.written h) k (s.written h k ++ [frame])) }
  | accept (h : Identifier) (k : ℕ) (rest : List ℕ) (idle : (s.unix h).handling = none)
      (oldest : (s.unix h).backlog = k :: rest) :
      Step w pack s (.accept h k)
        (s.setUnix h { s.unix h with handling := some k, backlog := rest })
  | firstFrame (h : Identifier) (k : ℕ) (n : Number) (frame : Unix.Frame)
      (handling : (s.unix h).handling = some k)
      (found : s.content (.inbox h k) n = some frame) :
      Step w pack s (.firstFrame h k n)
        ((s.take (.inbox h k) n).setUnix h ((s.unix h).handleNewStream k frame))
  | endOfStream (h : Identifier) (k : ℕ)
      (ends : (s.unix h).handling = some k ∨ ((s.unix h).bound k).isSome = true) :
      Step w pack s (.endOfStream h k) (s.setUnix h ((s.unix h).endOfStream k))
  | pass (x : Place) (n : Number) (c : x.Content) (y : Place) (c' : y.Content)
      (found : s.content x n = some c) (hop : s.Hop w x c y c') :
      Step w pack s (.advance x n) (s.pass x n y c')
  | drop (x : Place) (n : Number) (c : x.Content) (found : s.content x n = some c)
      (drops : s.Drops w x c) : Step w pack s (.advance x n) (s.take x n)
  | stop (h : Identifier) (k : ℕ) (n : Number) (srcPort : UInt16) (frame : Unix.Frame)
      (found : s.content (.inbox h k) n = some frame)
      (reads : (s.unix h).clients k = .bound srcPort true)
      (unhandled : ∀ hostId dstPort data, frame ≠ .data hostId dstPort data) :
      Step w pack s (.advance (.inbox h k) n)
        ((s.take (.inbox h k) n).setUnix h ((s.unix h).endOfStream k))
  | send (e : ℕ) (n : Number) (tuple : Delivery)
      (found : s.content (.unixToNetwork (w.host e)) n = some tuple)
      (remote : w.remoteId e = tuple.hostId) :
      Step w pack s (.send (w.host e) e n) (s.pass (.unixToNetwork (w.host e)) n (.sink e)
        (sendDataFrame tuple.srcPort tuple.dstPort tuple.data))
  | arrive (e : ℕ) (n : Number) (f : Frame) (bounded : Codec.Bounded f)
      (found : s.content (.flight e) n = some (Codec.encoding f)) :
      Step w pack s (.arrive e n) (s.pass (.flight e) n (.decoded e) f)
  | ping (e : ℕ) : Step w pack s (.ping e (s.sent e)) (s.issue e .ping)
  | pong (e : ℕ) (n : Number) (found : s.content (.decoded e) n = some .ping) :
      Step w pack s (.pong e (s.sent e) n) ((s.take (.decoded e) n).issue e .pong)
  | control (e : ℕ) (message : Message) (data : Bytes)
      (serialized : pack.serializeToMsgpck message [] = some data) :
      Step w pack s (.control e (s.sent e) message) (s.issue e (.data 0 0 data))
  | process (h : Identifier) (j : ℕ) (n : Number) (tuple : Delivery) (network : NetworkState)
      (found : s.content (.delivering h j) n = some tuple) (control : tuple.isControl)
      (result : (s.network h).processControlMessage pack tuple.hostId tuple.data =
        some (network, none)) :
      Step w pack s (.process h j n) { s.take (.delivering h j) n with
        network := Function.update s.network h network }
  | answer (h : Identifier) (j : ℕ) (n : Number) (tuple : Delivery) (network : NetworkState)
      (reply : Reply) (found : s.content (.delivering h j) n = some tuple)
      (control : tuple.isControl)
      (result : (s.network h).processControlMessage pack tuple.hostId tuple.data =
        some (network, some reply)) :
      Step w pack s (.process h j n) { s.pass (.delivering h j) n (.replying h j) reply with
        network := Function.update s.network h network }
  | reply (j e : ℕ) (n : Number) (reply : Reply) (data : Bytes)
      (found : s.content (.replying (w.host e) j) n = some reply)
      (remote : w.remoteId e = reply.host)
      (serialized : NetworkState.sendPeerInfo pack reply.peer = some data) :
      Step w pack s (.reply (w.host e) j e (s.sent e) n)
        { (s.take (.replying (w.host e) j) n).issue e (.data 0 0 data) with
          replies := Function.update s.replies (w.host e) (s.replies (w.host e) ++ [reply]) }
  | lose (x : Place) (n : Number) (c : x.Content) (found : s.content x n = some c) :
      Step w pack s (.lose x n) (s.take x n)

theorem effect_eq {x : Place} {n : Number} {c : x.Content} (found : s.content x n = some c) :
    s.effect w x n = s.stage w x c := by
  rw [effect, found, Option.elim_some]

theorem content_of_first {x : Place} {n : Number} (h : s.first x = some n) :
    ∃ c, s.content x n = some c :=
  Option.isSome_iff_exists.mp (find_isSome.mpr (List.mem_of_mem_head? h))

theorem next_step (hf : s.Framed) {e : WorldEvent} (he : s.enabled w pack e) :
    Step w pack s e (s.next w pack e) := by
  cases e with
  | connect h k =>
    obtain rfl : k = (s.unix h).nextClient := he
    exact .connect h
  | write h k i frame =>
    obtain ⟨-, rfl⟩ := he
    exact .write h k frame
  | accept h k =>
    obtain ⟨hidle, hoffered⟩ := he
    obtain ⟨rest, hrest⟩ := List.head?_eq_some_iff.mp hoffered
    simp only [next, hrest, List.tail_cons]
    exact .accept h k rest hidle hrest
  | firstFrame h k n =>
    obtain ⟨frame, hc⟩ := content_of_first he.2
    simp only [next, hc, Option.elim_some]
    exact .firstFrame h k n frame he.1 hc
  | endOfStream h k => exact .endOfStream h k he.2
  | advance x n =>
    obtain ⟨c, hc⟩ := content_of_first he.1
    have hready := he.2
    have heffect : s.effect w x n = s.stage w x c := by
      rw [effect, hc, Option.elim_some]
    simp only [next]
    rw [heffect] at hready ⊢
    cases hs : s.stage w x c with
    | pass y c' => exact .pass x n c y c' hc (.of_stage hs)
    | drop => exact .drop x n c hc (.of_stage hs)
    | stop h k =>
      cases Stops.of_stage hs with
      | inbox _ _ srcPort frame reads unhandled =>
        exact .stop h k n srcPort frame hc reads unhandled
    | stuck => simp [hs, ready] at hready
  | send h e n =>
    obtain ⟨hfirst, rfl, -, hany⟩ := he
    obtain ⟨tuple, hc, hremote⟩ := (Option.any_eq_true ..).mp hany
    simp only [next, hc, Option.elim_some]
    exact .send e n tuple hc (of_decide_eq_true hremote)
  | arrive e n =>
    obtain ⟨record, hc⟩ := Option.isSome_iff_exists.mp he.1
    obtain ⟨f, hb, rfl⟩ := hf.flight.of_find hc
    simp only [next, hc, Option.elim_some]
    rw [hf.arrive hb]
    exact .arrive e n f hb hc
  | ping e i =>
    obtain ⟨rfl, -⟩ := he
    exact .ping e
  | pong e i n =>
    obtain ⟨rfl, -, -, -, hany⟩ := he
    obtain ⟨frame, hc, hping⟩ := (Option.any_eq_true ..).mp hany
    rw [of_decide_eq_true hping] at hc
    exact .pong e n hc
  | control e i message =>
    obtain ⟨rfl, -, hser⟩ := he
    obtain ⟨data, hd⟩ := Option.isSome_iff_exists.mp hser
    simp only [next, hd, Option.elim_some]
    exact .control e message data hd
  | process h j n =>
    obtain ⟨hfirst, -, hany⟩ := he
    obtain ⟨tuple, hc, hresult⟩ := (Option.any_eq_true ..).mp hany
    obtain ⟨hcontrol, hsome⟩ := of_decide_eq_true hresult
    obtain ⟨⟨network, reply⟩, hp⟩ := Option.isSome_iff_exists.mp hsome
    simp only [next, hc, Option.elim_some, World.process, hp]
    cases reply with
    | none => exact .process h j n tuple network hc hcontrol hp
    | some reply => exact .answer h j n tuple network reply hc hcontrol hp
  | reply h j e i n =>
    obtain ⟨rfl, -, hfirst, rfl, hany⟩ := he
    obtain ⟨reply, hc, hresult⟩ := (Option.any_eq_true ..).mp hany
    obtain ⟨hremote, hsome⟩ := of_decide_eq_true hresult
    obtain ⟨data, hd⟩ := Option.isSome_iff_exists.mp hsome
    simp only [next, hc, Option.elim_some, World.reply, hd]
    exact .reply j e n reply data hc hremote hd
  | lose x n =>
    obtain ⟨c, hc⟩ := Option.isSome_iff_exists.mp he
    exact .lose x n c hc

end World

end Uip
