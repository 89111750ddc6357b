import Uip.QueueLoads
import Uip.WorldRest

/-! What the tasks have in hand calls for finitely many steps, those for answers included: where
nothing comes from outside, the daemons come to rest. -/
namespace Uip
open TransitionSystem ItemQueues Transport

variable {w : Wiring} {pack : MessagePack}

/-- A record that is written is not read as a request. -/
def MessagePack.KeepsRecords (pack : MessagePack) : Prop :=
  ∀ info bytes, pack.serialize (.peerInfo info) = some bytes →
    ∀ id, pack.deserialize bytes ≠ .value (.peerInfoRequest id)

theorem MessagePack.keepsRecords (readsBack : ∀ info, pack.ReadsBack (.peerInfo info)) :
    pack.KeepsRecords := by
  intro info bytes hwritten id hread
  cases (readsBack info bytes hwritten).symm.trans hread

def MessagePack.asks (pack : MessagePack) (data : Bytes) : ℕ :=
  match pack.deserializeFromMsgpck data with
  | some (.peerInfoRequest _) => 1
  | _ => 0

/-- The answers that a frame may call for: a pong, or the record of a peer. -/
def Transport.Frame.answers (pack : MessagePack) : Frame → ℕ
  | .ping => 1
  | .pong => 0
  | .data _ _ bytes => pack.asks bytes

def Unix.Frame.answers (pack : MessagePack) : Unix.Frame → ℕ
  | .data _ _ bytes => pack.asks bytes
  | .bind _ | .error _ => 0

namespace Place

/-- The answers that an item may still call for. -/
def answers (pack : MessagePack) : (x : Place) → x.Content → ℕ
  | .inbox .., frame => frame.answers pack
  | .sink _, frame | .writing _, frame | .decoded _, frame => frame.answers pack
  | .flight _, record =>
    (StreamDecoder.drain Codec.decode record).frames.head?.elim 0 (Frame.answers pack)
  | .unixRead .., tuple | .unixSource _, tuple | .unixToNetwork _, tuple | .reading _, tuple
  | .deliverFrame .., tuple | .delivering .., tuple => pack.asks tuple.data
  | .replying .., _ | .networkSource _, _ | .networkToUnix _, _ | .handing _, _ | .channel .., _
  | .stream .., _ => 0

/-- The steps that an item calls for at most, where an answer calls for 13. -/
def work (pack : MessagePack) (x : Place) (c : x.Content) : ℕ :=
  match x with
  | .replying .. => 13
  | x => 16 - x.rank + 13 * answers pack x c

theorem work_pos {x : Place} (short : x.rank < 16) (c : x.Content) : 0 < x.work pack c := by
  cases x <;> simp only [work, rank] at short ⊢ <;> omega

end Place

namespace World

variable {s t : World} {e : WorldEvent} {total : ℕ}

/-- The clients that daemons have to accept, as items. -/
def backlogs (s : World) : Queues ℕ fun _ : Identifier => Unit :=
  fun h => (s.unix h).backlog.map fun k => ⟨k, ()⟩

def Work (pack : MessagePack) (s : World) (total : ℕ) : Prop :=
  ∃ items clients, Load (Place.work pack) s.queue items ∧ Load (fun _ _ => 1) s.backlogs clients ∧
    items + clients = total

theorem Work.new (network : Identifier → NetworkState) : (World.new network).Work pack 0 :=
  ⟨0, 0, .empty, .empty, rfl⟩

theorem answers_record {f : Frame} (bounded : Codec.Bounded f) (e : ℕ) :
    Place.answers pack (.flight e) (Codec.encoding f) = f.answers pack := by
  simp [Place.answers, Codec.drain_encoding bounded]

theorem asks_of_reply {network network' : NetworkState} {hostId : Identifier} {data : Bytes}
    {reply : Reply} (result : network.processControlMessage pack hostId data =
      some (network', some reply)) : pack.asks data = 1 := by
  rcases NetworkState.processControlMessage_spec result with ⟨peer, -, -, hnone⟩ | ⟨-, -, hreply⟩
  · cases hnone
  · obtain ⟨-, id, -, hasks⟩ := hreply reply rfl
    simp [MessagePack.asks, hasks]

theorem asks_of_sendPeerInfo (keeps : pack.KeepsRecords) {peer : Peer} {data : Bytes}
    (serialized : NetworkState.sendPeerInfo pack peer = some data) : pack.asks data = 0 := by
  have hwritten : pack.serialize (.peerInfo ⟨peer⟩) = some data := by
    simpa [NetworkState.sendPeerInfo, MessagePack.serializeToMsgpck] using serialized
  unfold MessagePack.asks MessagePack.deserializeFromMsgpck
  cases hread : pack.deserialize data with
  | value message =>
    cases message with
    | peerInfoRequest id => exact absurd hread (keeps _ _ hwritten id)
    | peerInfo | invalid => rfl
  | error | panic => rfl

theorem Hop.answers_le {x y : Place} {c : x.Content} {c' : y.Content} (hop : s.Hop w x c y c') :
    y.answers pack c' ≤ x.answers pack c := by
  cases hop with
  | writing e frame fits => exact (answers_record (bounded_of_length fits) (w.peer e)).le
  | delivering | networkSource | networkToUnix | handing | channel => exact Nat.zero_le _
  | _ => exact Nat.le_refl _

theorem Hop.work_lt {x y : Place} {c : x.Content} {c' : y.Content} (hop : s.Hop w x c y c') :
    y.work pack c' < x.work pack c := by
  have hanswers : y.answers pack c' ≤ x.answers pack c := hop.answers_le
  cases hop <;> simp only [Place.work, Place.rank] <;> omega

/-- The steps for the items: a task that takes an item leaves less to do. -/
theorem Step.items (keeps : pack.KeepsRecords) (step : Step w pack s e t)
    (load : Load (Place.work pack) s.queue total) :
    ∃ rest, Load (Place.work pack) t.queue rest ∧ (e.internal = true →
      rest ≤ total ∧ ((∀ h k, e ≠ .accept h k) → rest < total)) := by
  have taken : ∀ {x : Place} {n : Number} {c : x.Content}, s.content x n = some c →
      0 < x.work pack c → ∃ rest, Load (Place.work pack) (erase s.queue x n) rest ∧
        (e.internal = true → rest ≤ total ∧ ((∀ h k, e ≠ .accept h k) → rest < total)) := by
    intro x n c found positive
    obtain ⟨rest, htotal, hrest⟩ := load.erase found
    exact ⟨rest, hrest, fun _ => ⟨by omega, fun _ => by omega⟩⟩
  have moved : ∀ {x y : Place} {n m : Number} {c : x.Content} {c' : y.Content},
      s.content x n = some c → y.work pack c' < x.work pack c →
        ∃ rest, Load (Place.work pack) (push (erase s.queue x n) y m c') rest ∧
          (e.internal = true → rest ≤ total ∧ ((∀ h k, e ≠ .accept h k) → rest < total)) := by
    intro x y n m c c' found less
    obtain ⟨rest, htotal, hrest⟩ := load.move found y m c'
    exact ⟨rest, hrest, fun _ => ⟨by omega, fun _ => by omega⟩⟩
  cases step with
  | connect | endOfStream => exact ⟨total, load, nofun⟩
  | accept h k => exact ⟨total, load, fun _ => ⟨Nat.le_refl _, fun hne => absurd rfl (hne h k)⟩⟩
  | write | ping | control => exact ⟨_, load.push _ _ _, nofun⟩
  | lose x n c found =>
    obtain ⟨rest, -, hrest⟩ := load.erase found
    exact ⟨rest, hrest, nofun⟩
  | firstFrame h k n frame handling found =>
    exact taken found (Place.work_pos (by simp [Place.rank]) _)
  | drop x n c found drops =>
    refine taken found (Place.work_pos ?_ c)
    cases drops <;> simp [Place.rank]
  | stop h k n srcPort frame found => exact taken found (Place.work_pos (by simp [Place.rank]) _)
  | process h j n tuple network found => exact taken found (Place.work_pos (by simp [Place.rank]) _)
  | pass x n c y c' found hop => exact moved found hop.work_lt
  | send e n tuple found =>
    refine moved found ?_
    simp [Place.work, Place.rank, Place.answers, sendDataFrame, Frame.answers]
  | arrive e n f bounded found =>
    refine moved found ?_
    simp only [Place.work, Place.rank, answers_record bounded]
    simp [Place.answers]
  | pong e n found =>
    refine moved found ?_
    simp [Place.work, Place.rank, Place.answers, Frame.answers]
  | answer h j n tuple network reply found control result =>
    refine moved found ?_
    simp [Place.work, Place.rank, Place.answers, asks_of_reply result]
  | reply j e n reply data found remote serialized =>
    refine moved found ?_
    simp [Place.work, Place.rank, Place.answers, Frame.answers,
      asks_of_sendPeerInfo keeps serialized]

theorem Step.clients (step : Step w pack s e t) (load : Load (fun _ _ => 1) s.backlogs total) :
    ∃ rest, Load (fun _ _ => 1) t.backlogs rest ∧ (e.internal = true →
      rest ≤ total ∧ ∀ h k, e = .accept h k → rest < total) := by
  rcases step.backlog with ⟨h, rfl, rfl⟩ | ⟨h, k, others, rfl, oldest, rfl⟩ | same
  · have hpush : World.backlogs (s.setUnix h { s.unix h with
        nextClient := (s.unix h).nextClient + 1
        backlog := (s.unix h).backlog ++ [(s.unix h).nextClient] }) =
          push s.backlogs h (s.unix h).nextClient () := by
      funext h'
      by_cases hh : h' = h
      · subst hh
        simp [backlogs, setUnix, push]
      · simp [backlogs, setUnix, push, hh]
    exact ⟨total + 1, hpush ▸ load.push h _ (), fun internal => by cases internal⟩
  · have herase : World.backlogs (s.setUnix h { s.unix h with
        handling := some k, backlog := others }) = erase s.backlogs h k := by
      funext h'
      by_cases hh : h' = h
      · subst hh
        simp [backlogs, setUnix, erase, oldest]
      · simp [backlogs, setUnix, erase, hh]
    have found : find s.backlogs h k = some () := by simp [find, backlogs, oldest]
    obtain ⟨rest, htotal, hrest⟩ := load.erase found
    exact ⟨rest, herase ▸ hrest, fun _ => ⟨by omega, fun _ _ _ => by omega⟩⟩
  · have hsame : t.backlogs = s.backlogs := by
      funext h
      simp only [backlogs, same h]
    refine ⟨total, hsame ▸ load, fun _ => ⟨Nat.le_refl _, ?_⟩⟩
    rintro h k rfl
    cases step with
    | accept _ _ others idle oldest =>
      have hshort := same h
      simp [setUnix, oldest] at hshort

theorem Step.work (keeps : pack.KeepsRecords) (step : Step w pack s e t)
    (work : s.Work pack total) :
    ∃ rest, t.Work pack rest ∧ (e.internal = true → rest < total) := by
  obtain ⟨items, clients, hitems, hclients, rfl⟩ := work
  obtain ⟨items', hitems', hless⟩ := step.items keeps hitems
  obtain ⟨clients', hclients', hfewer⟩ := step.clients hclients
  refine ⟨_, ⟨items', clients', hitems', hclients', rfl⟩, fun internal => ?_⟩
  have hitems_le := hless internal
  have hclients_le := hfewer internal
  by_cases haccept : ∃ h k, e = .accept h k
  · obtain ⟨h, k, he⟩ := haccept
    have hone := hclients_le.2 h k he
    omega
  · have hone := hitems_le.2 fun h k he => haccept ⟨h, k, he⟩
    omega

theorem exists_work (keeps : pack.KeepsRecords) (r : Run (worldMachine w pack)) :
    ∃ total, r.final.Work pack total := by
  apply r.path.carries (P := fun s => ∃ total, s.Work pack total)
  · obtain ⟨network, hr⟩ := r.starts
    rw [hr]
    exact ⟨0, .new network⟩
  · rintro x hx ⟨total, hwork⟩
    obtain ⟨-, step, -⟩ := (sound_of_mem r).2 x hx
    obtain ⟨rest, hrest, -⟩ := step.work keeps hwork
    exact ⟨rest, hrest⟩

end World

/-- The world while only the tasks go on, and the sockets of stalled clients take nothing. -/
def taskMachine (w : Wiring) (pack : MessagePack) (stalled : Identifier → ℕ → Bool) :
    Machine World WorldEvent :=
  (worldMachine w pack).restrict fun _ e => e.goesOn stalled

theorem WorldEvent.internal_of_goesOn {stalled : Identifier → ℕ → Bool} {e : WorldEvent}
    (goes : e.goesOn stalled = true) : e.internal = true := by
  cases e with
  | advance => rfl
  | _ => exact goes

namespace World

variable {s : World} {stalled : Identifier → ℕ → Bool}

theorem atRest_iff :
    s.AtRest w pack stalled ↔ ∀ e, (taskMachine w pack stalled).step s e = none := by
  constructor
  · intro rest e
    cases goes : e.goesOn stalled with
    | true => simp [taskMachine, Machine.restrict, worldMachine, guarded, rest e goes]
    | false => simp [taskMachine, Machine.restrict, goes]
  · intro stuck e goes he
    have hnone := stuck e
    simp [taskMachine, Machine.restrict, worldMachine, guarded, goes, he] at hnone

/-- Where nothing comes from outside, the tasks make a bounded number of steps, whatever they do
and whichever clients are stalled, and can always go on until they are at rest. -/
theorem comes_to_rest (keeps : pack.KeepsRecords) (r : Run (worldMachine w pack)) :
    ∃ bound, ∀ stalled trace t, Path (taskMachine w pack stalled) r.final trace t →
      trace.length ≤ bound ∧
        ∃ more u, Path (taskMachine w pack stalled) t more u ∧ u.AtRest w pack stalled := by
  obtain ⟨bound, hbound⟩ := exists_work keeps r
  refine ⟨bound, fun stalled trace t path => ?_⟩
  have hstep : ∀ s e t n, (Reachable (worldMachine w pack) s ∧ s.Work pack n) →
      (taskMachine w pack stalled).step s e = some t →
        ∃ m, m < n ∧ Reachable (worldMachine w pack) t ∧ t.Work pack m := by
    rintro s e t n ⟨hs, hwork⟩ hst
    obtain ⟨goes, hnext⟩ : e.goesOn stalled = true ∧ (worldMachine w pack).step s e = some t := by
      simpa [taskMachine, Machine.restrict] using hst
    have step := (Sound.of_reachable hs).step_of_next hnext
    obtain ⟨rest, hrest, hless⟩ := step.work keeps hwork
    exact ⟨rest, hless (WorldEvent.internal_of_goesOn goes), hs.next hnext, hrest⟩
  obtain ⟨m, hlength, ht⟩ := path.length_le hstep ⟨r.reachable, hbound⟩
  obtain ⟨u, more, hmore, hstuck⟩ := exists_stuck_of_lowers hstep ht
  exact ⟨by omega, more, u, hmore, atRest_iff.mpr hstuck⟩

end World

section Pair

def nearPack : MessagePack := .ofTable [writePeerInfo nearHost []]

/-- A ping on its way, which calls for a pong. -/
theorem comes_to_rest_ping : ∃ r : Run (worldMachine pairWiring nearPack),
    r.final.content (.sink 0) (.daemon 0 0) = some .ping ∧ ∃ bound, ∀ stalled trace t,
      Path (taskMachine pairWiring nearPack stalled) r.final trace t → trace.length ≤ bound ∧
        ∃ more u, Path (taskMachine pairWiring nearPack stalled) t more u ∧
          u.AtRest pairWiring nearPack stalled := by
  have hrun : (exec (worldMachine pairWiring nearPack) (.new emptyNetwork)
      [.ping 0 0]).any (fun t =>
        decide (t.content (.sink 0) (.daemon 0 0) = some .ping)) = true := by
    decide +kernel
  have hinit : (worldMachine pairWiring nearPack).init (.new emptyNetwork) := ⟨emptyNetwork, rfl⟩
  obtain ⟨t, ⟨r, rfl⟩, ht⟩ := exec_reachable hinit _ hrun
  have hnodup : ([writePeerInfo nearHost []].map Prod.snd).Nodup := List.nodup_singleton _
  have keeps : nearPack.KeepsRecords :=
    MessagePack.keepsRecords fun _ => MessagePack.ofTable_readsBack hnodup _
  exact ⟨r, of_decide_eq_true ht, World.comes_to_rest keeps r⟩

end Pair

end Uip
