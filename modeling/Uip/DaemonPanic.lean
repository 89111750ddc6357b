import Uip.DaemonInvariant
import Uip.IdentifierText

/-! Whether a control message can make its receiver panic. Its identifiers are read from strings
that the sender chose; a string of the right length that cuts a character ends the task that
delivers the frames of the socket. -/
namespace Uip
open TransitionSystem Transport

variable {tls : Tls}

namespace MessagePack

/-- `rmp_serde` with the derived `Deserialize` of `Message`. -/
def ofReader (serialize : Message → Option Bytes) (read : Bytes → Reader Message) :
    MessagePack := ⟨serialize, fun bytes => (read bytes).run⟩

variable {serialize : Message → Option Bytes} {read : Bytes → Reader Message}

theorem deserialize_ofReader_isSome {data : Bytes} :
    (∃ message, (ofReader serialize read).deserializeFromMsgpck data = some message) ↔
      ¬ (read data).cutsCharacter := by
  rw [← Reader.run_eq_panic]
  simp only [deserializeFromMsgpck, ofReader]
  cases (read data).run <;> simp

theorem deserialize_ofReader_error {data : Bytes} (h : (read data).run = .error) :
    (ofReader serialize read).deserializeFromMsgpck data = some (.invalid data) := by
  simp [deserializeFromMsgpck, ofReader, h]

end MessagePack

namespace NetworkState

variable {pack : MessagePack}

/-- Processing a control message comes to an end exactly where decoding it does. -/
theorem processControlMessage_isSome {s : NetworkState} {hostId : Identifier} {data : Bytes} :
    (∃ result, s.processControlMessage pack hostId data = some result) ↔
      ∃ message, pack.deserializeFromMsgpck data = some message := by
  unfold processControlMessage
  cases pack.deserializeFromMsgpck data with
  | none => simp
  | some message =>
    cases message with
    | peerInfo info =>
      simp only
      split_ifs <;> simp
    | peerInfoRequest id =>
      simp only
      cases s.pib.getPeer id <;> simp
    | invalid bytes => simp

theorem processControlMessage_invalid {s : NetworkState} {hostId : Identifier}
    {data bytes : Bytes} (h : pack.deserializeFromMsgpck data = some (.invalid bytes)) :
    s.processControlMessage pack hostId data = some (s, none) := by
  simp [processControlMessage, h]

end NetworkState

/-- A task that runs, and that has not taken a control message it would panic at. -/
def Phase.harmless (read : Bytes → Reader Message) : Phase → Prop
  | .ended => False
  | .delivering delivery => delivery.isControl → ¬ (read delivery.data).cutsCharacter
  | _ => True

namespace Daemon

variable {serialize : Message → Option Bytes} {read : Bytes → Reader Message} {d : Daemon tls}
  {e : DaemonEvent tls}

def Harmless (read : Bytes → Reader Message) (d : Daemon tls) : Prop :=
  ∀ n, (d.tasks n).phase.harmless read

/-- A control message that a deliver task takes cuts no character. -/
def takesHarmless (read : Bytes → Reader Message) : DaemonEvent tls → Prop
  | .take _ _ delivery => delivery.isControl → ¬ (read delivery.data).cutsCharacter
  | _ => True

theorem Harmless.setTask (h : d.Harmless read) {n : ℕ} {task : Task}
    (ht : task.phase.harmless read) : (d.setTask n task).Harmless read := by
  intro m
  by_cases hm : m = n
  · subst hm
    simpa [Daemon.setTask] using ht
  · simpa [Daemon.setTask, hm] using h m

theorem Harmless.next (h : d.Harmless read)
    (he : d.enabled (.ofReader serialize read) e) (hg : takesHarmless read e) :
    (d.next (.ofReader serialize read) e).Harmless read := by
  have heffect : (d.effect (.ofReader serialize read) e).Harmless read := by
    cases e with
    | socket | closeSocket => exact h
    | openSocket address =>
      have hfirst : (d.setTask d.nextTask ⟨.relays d.nextSocket d.network.relays, .idle⟩).Harmless
          read := h.setTask trivial
      have hsecond : Phase.harmless read (Task.mk (.deliver d.nextSocket) .idle).phase := trivial
      exact hfirst.setTask hsecond
    | sendFrame | getConnection | connectToRelays => exact h.setTask trivial
    | requestPeerInfo id =>
      simp only [effect]
      split
      · exact h.setTask trivial
      · exact h
    | take n k delivery => exact h.setTask hg
    | process n delivery =>
      simp only [effect, processDelivery]
      split
      · exact h.setTask trivial
      · exact h.setTask trivial
      · exact h
    | panicked n k delivery =>
      obtain ⟨htask, hcontrol, hnone⟩ := he.1
      have hn := h n
      rw [htask] at hn
      have hdecode : ∃ message,
          (MessagePack.ofReader serialize read).deserializeFromMsgpck delivery.data =
            some message := MessagePack.deserialize_ofReader_isSome.mpr (hn hcontrol)
      have hprocess : ∃ result, d.network.processControlMessage (.ofReader serialize read)
          delivery.hostId delivery.data = some result :=
        NetworkState.processControlMessage_isSome.mpr hdecode
      obtain ⟨result, hr⟩ := hprocess
      simp [hr] at hnone
    | _ => exact h.setTask trivial
  exact heffect

end Daemon

/-- Control messages are decoded and processed to the end, and the tasks that take them run on,
where no string that stands for an identifier cuts a character; what is invalid changes nothing. -/
theorem control_messages_harmless_iff (tls : Tls) (serialize : Message → Option Bytes)
    (read : Bytes → Reader Message) :
    (∀ (s : NetworkState) (hostId : Identifier) (data : Bytes),
      ((∃ message,
          (MessagePack.ofReader serialize read).deserializeFromMsgpck data = some message) ∧
        ∃ result, s.processControlMessage (.ofReader serialize read) hostId data = some result) ↔
          ¬ (read data).cutsCharacter) ∧
    (∀ data, (read data).run = .error →
      (MessagePack.ofReader serialize read).deserializeFromMsgpck data = some (.invalid data)) ∧
    (∀ (s : NetworkState) (hostId : Identifier) (data bytes : Bytes),
      (MessagePack.ofReader serialize read).deserializeFromMsgpck data = some (.invalid bytes) →
        s.processControlMessage (.ofReader serialize read) hostId data = some (s, none)) ∧
    ∀ r : Run (daemonMachine tls (.ofReader serialize read)),
      (∀ x ∈ r.transitions, ∀ n k delivery, x.label = .take n k delivery → delivery.isControl →
        ¬ (read delivery.data).cutsCharacter) →
      ∀ x ∈ r.transitions, ∀ n, (x.target.tasks n).phase ≠ .ended := by
  refine ⟨fun s hostId data => ?_, fun data h => MessagePack.deserialize_ofReader_error h,
    fun s hostId data bytes h => NetworkState.processControlMessage_invalid h, fun r hr => ?_⟩
  · rw [NetworkState.processControlMessage_isSome, and_self,
      MessagePack.deserialize_ofReader_isSome]
  · obtain ⟨s, trace, t, ⟨network, rfl⟩, path⟩ := r
    have hstart : (Daemon.new tls network).Harmless read := fun n => trivial
    have hguard : ∀ x ∈ trace, Daemon.takesHarmless read x.label := by
      intro x hx
      cases hl : x.label with
      | take n k delivery => exact hr x hx n k delivery hl
      | _ => trivial
    have hrun := path.guarded_invariant (P := Daemon.Harmless read)
      (G := fun _ e => Daemon.takesHarmless read e)
      (fun d e hd hg he => hd.next he hg) hstart hguard
    intro x hx n hended
    have hn := (hrun.2 x hx).2 n
    rw [hended] at hn
    exact hn

section Cut

def requestBytes (string : Text) : Bytes :=
  [0x81, 0x01, 0xd9, 0x40] ++ string.flatMap String.utf8EncodeChar

def readRequest (strings : List Text) (bytes : Bytes) : Reader Message :=
  match strings.find? fun string => requestBytes string = bytes with
  | some string => .identifier string fun id => .value (.peerInfoRequest id)
  | none => .error

/-- Sixty-four bytes with a character across the first two pairs. -/
def cutText : Text := 'a' :: (List.replicate 31 'é' ++ ['a'])

def cutPack : MessagePack := .ofReader (fun _ => none) (readRequest [cutText])

/-- A host connects and sends a request for the record of `cutText`. -/
def cutEvents : List (DaemonEvent keyTls) :=
  [.openSocket localAddr, .socket 0 (.reader (.datagram [22] (.v6 hostAddr))),
    .socket 0 (.reader (.send ⟨0, .v6 hostAddr, [22]⟩ 0 true)),
    .socket 0 (.reader (.insert (.v6 hostAddr) 0 true)), .socket 0 (.reader (.offer 0)),
    .socket 0 (.accept (.take 0)), .socket 0 (.accept (.await 0)),
    .socket 0 (.accept (.read 0 ⟨0, .v6 hostAddr, [22]⟩)),
    .socket 0 (.accepted 0 (keySession [1])), .socket 0 (.register 0),
    .socket 0 (.reader (.datagram [23] (.v6 hostAddr))),
    .socket 0 (.reader (.send ⟨1, .v6 hostAddr, [23]⟩ 0 false)),
    .socket 0 (.receive 0 ⟨1, .v6 hostAddr, [23]⟩ [.data 0 0 (requestBytes cutText)]),
    .socket 0 (.connection 0 (.frame (.data 0 0 (requestBytes cutText)))),
    .socket 0 (.deliver 0), .take 1 0 ⟨digestOne, 0, 0, requestBytes cutText⟩,
    .panicked 1 0 ⟨digestOne, 0, 0, requestBytes cutText⟩]

theorem cut_text_panics :
    cutPack.deserializeFromMsgpck (requestBytes cutText) = none ∧
    (∀ s : NetworkState,
      s.processControlMessage cutPack digestOne (requestBytes cutText) = none) ∧
    ∃ d : Daemon keyTls, Reachable (daemonMachine keyTls cutPack) d ∧
      d.tasks 1 = ⟨.deliver 0, .ended⟩ := by
  have hnone : cutPack.deserializeFromMsgpck (requestBytes cutText) = none := by decide +kernel
  refine ⟨hnone, fun s => ?_, ?_⟩
  · simp [NetworkState.processControlMessage, hnone]
  · obtain ⟨d, hd, hp⟩ := exec_reachable (M := daemonMachine keyTls cutPack)
      ⟨⟨digestTwo, .new, [], 65041⟩, rfl⟩ cutEvents
      (p := fun d => decide (d.tasks 1 = ⟨.deliver 0, .ended⟩)) (by decide +kernel)
    exact ⟨d, hd, of_decide_eq_true hp⟩

end Cut

end Uip
