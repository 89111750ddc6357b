import Uip.NetworkState

/-! Only a peer itself changes its record: the peer information base after any sequence of
control messages, from any hosts and with any content, for which the processing returns. -/
namespace Uip.NetworkState
open TransitionSystem

variable (pack : MessagePack)

def controlMachine : Machine NetworkState (Identifier × Bytes) where
  init _ := True
  step s message := (s.processControlMessage pack message.1 message.2).map Prod.fst

/-- The record of the last message that `id` sent about itself. -/
def lastOwnRecord (id : Identifier) (messages : List (Identifier × Bytes)) : Option Peer :=
  (messages.filterMap fun message => ownRecord pack id message.1 message.2).getLast?

variable {pack}

theorem controlMachine_step {s t : NetworkState} {message : Identifier × Bytes} :
    (controlMachine pack).step s message = some t ↔
      ∃ reply, s.processControlMessage pack message.1 message.2 = some (t, reply) := by
  simp [controlMachine]

theorem lastOwnRecord_cons (id : Identifier) (message : Identifier × Bytes)
    (messages : List (Identifier × Bytes)) :
    lastOwnRecord pack id (message :: messages) =
      (lastOwnRecord pack id messages).or (ownRecord pack id message.1 message.2) := by
  unfold lastOwnRecord
  cases h : ownRecord pack id message.1 message.2 with
  | none => simp [h]
  | some peer =>
    simp only [List.filterMap_cons, h, List.getLast?_cons]
    cases (messages.filterMap fun m => ownRecord pack id m.1 m.2).getLast? <;> rfl

theorem exec_getPeer {s t : NetworkState} {messages : List (Identifier × Bytes)}
    (h : exec (controlMachine pack) s messages = some t) (id : Identifier) :
    t.pib.getPeer id = (lastOwnRecord pack id messages).or (s.pib.getPeer id) := by
  induction messages generalizing s with
  | nil =>
    obtain rfl := Option.some.inj h
    simp [lastOwnRecord]
  | cons message messages ih =>
    obtain ⟨u, hu, hrest⟩ := Option.bind_eq_some_iff.mp h
    obtain ⟨reply, hp⟩ := controlMachine_step.mp hu
    rw [ih hrest, processControlMessage_getPeer hp, lastOwnRecord_cons, Option.or_assoc]

theorem exec_frame {s t : NetworkState} {messages : List (Identifier × Bytes)}
    (h : exec (controlMachine pack) s messages = some t) :
    t.relays = s.relays ∧ t.port = s.port := by
  obtain ⟨trace, path, _⟩ := exec_path h
  refine (path.preserves (P := fun u => u.relays = s.relays ∧ u.port = s.port) ?_ ⟨rfl, rfl⟩).1
  rintro u message v ⟨hr, hp⟩ hstep
  obtain ⟨reply, hv⟩ := controlMachine_step.mp hstep
  obtain ⟨_, hr', hp'⟩ := processControlMessage_frame hv
  exact ⟨hr'.trans hr, hp'.trans hp⟩

theorem exec_ownRecords {s t : NetworkState} {messages : List (Identifier × Bytes)}
    (h : exec (controlMachine pack) s messages = some t) (hs : s.pib.OwnRecords) :
    t.pib.OwnRecords := by
  obtain ⟨trace, path, _⟩ := exec_path h
  refine (path.preserves (P := fun u => u.pib.OwnRecords) ?_ hs).1
  intro u message v hu hstep
  obtain ⟨reply, hv⟩ := controlMachine_step.mp hstep
  exact processControlMessage_ownRecords hv hu

/-- Requests, invalid messages and whatever comes from other hosts write no record of `id`. -/
theorem lastOwnRecord_eq_none {id : Identifier} {messages : List (Identifier × Bytes)}
    (h : ∀ m ∈ messages, m.1 ≠ id ∨
      (∃ x, pack.deserializeFromMsgpck m.2 = some (.peerInfoRequest x)) ∨
      ∃ b, pack.deserializeFromMsgpck m.2 = some (.invalid b)) :
    lastOwnRecord pack id messages = none := by
  rw [lastOwnRecord, List.getLast?_eq_none_iff, List.filterMap_eq_nil_iff]
  intro m hm
  rcases h m hm with hne | ⟨x, hx⟩ | ⟨b, hb⟩
  · rw [Option.eq_none_iff_forall_ne_some]
    intro peer hp
    exact hne (ownRecord_eq_some.mp hp).1
  · simp [ownRecord, hx]
  · simp [ownRecord, hb]

/-- Ownership of records over whole message sequences: the last writer of a record is the peer
it describes, nobody else has a say, and the relays and the port never change. -/
theorem processing_last_writer {s t : NetworkState} {messages : List (Identifier × Bytes)}
    (h : exec (controlMachine pack) s messages = some t) :
    (∀ id, t.pib.getPeer id = (lastOwnRecord pack id messages).or (s.pib.getPeer id)) ∧
    (∀ id, (∀ m ∈ messages, m.1 ≠ id ∨
        (∃ x, pack.deserializeFromMsgpck m.2 = some (.peerInfoRequest x)) ∨
        ∃ b, pack.deserializeFromMsgpck m.2 = some (.invalid b)) →
      t.pib.getPeer id = s.pib.getPeer id) ∧
    t.relays = s.relays ∧ t.port = s.port ∧
    (s.pib.OwnRecords → t.pib.OwnRecords) := by
  obtain ⟨hr, hp⟩ := exec_frame h
  refine ⟨exec_getPeer h, fun id hid => ?_, hr, hp, exec_ownRecords h⟩
  rw [exec_getPeer h, lastOwnRecord_eq_none hid, Option.none_or]

/-- Host 2 sends a record about host 1 after host 1 sent its own: the latter stays. -/
theorem processing_last_writer_forged :
    let one : Identifier := ⟨Vector.replicate 32 1⟩
    let two : Identifier := ⟨Vector.replicate 32 2⟩
    let pack := MessagePack.ofTable [writePeerInfo one [two], writePeerInfo one []]
    ∃ t, exec (controlMachine pack) ⟨two, .new, [], 7⟩
        [(one, (writePeerInfo one [two]).2), (two, (writePeerInfo one []).2)] = some t ∧
      t.pib.getPeer one = some ⟨one, [], [two]⟩ ∧ t.relays = [] := by
  intro one two pack
  obtain ⟨t, ht⟩ := Option.isSome_iff_exists.mp
    (show (exec (controlMachine pack) ⟨two, .new, [], 7⟩
      [(one, (writePeerInfo one [two]).2), (two, (writePeerInfo one []).2)]).isSome by decide)
  obtain ⟨hpeer, _, hrelays, _⟩ := processing_last_writer ht
  exact ⟨t, ht, (hpeer one).trans (by decide), hrelays⟩

end Uip.NetworkState
