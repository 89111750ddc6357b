import Uip.WorldDelivery

/-! Data of a client reaches the client that it is addressed to, once and unchanged. -/
namespace Uip
open TransitionSystem ItemQueues Transport

variable {w : Wiring} {pack : MessagePack}

namespace World

section Runs

/-- In this run the data `d` that a client of `A` bound to `s` has sent to the port `p` of `B`
goes to nobody but the client that `B` finds registered for `p`, at most once, and unchanged. It
has been received, or it is on its way, or it has been lost. -/
structure Addressed (r : Run (worldMachine w pack)) (A B : Identifier) (n : Number)
    (s p : UInt16) (d : Bytes) : Prop where
  received : ∀ h k frame, (⟨n, frame⟩ ∈ r.final.queue (.channel h k) ∨
      ⟨n, frame⟩ ∈ r.final.queue (.stream h k)) →
    h = B ∧ frame = .data A s d ∧ (r.final.unix B).bound k = some p ∧
      ∃ x ∈ r.transitions, x.label = .advance (.networkToUnix B) n ∧
        (x.source.unix B).connections.lookup p = some k
  once : r.transitions.Pairwise fun x y =>
    ¬ ((∃ h k, Delivers h k n x) ∧ ∃ h k, Delivers h k n y)
  uncontrolled : ∀ x ∈ r.transitions, ∀ h j, x.label ≠ .process h j n
  arrives : (∃ k, r.final.Received B k n) ∨
    (∃ y, y.rank ≤ 14 ∧ n ∈ numbers r.final.queue y) ∨
    ∃ x ∈ r.transitions, Loses w B ⟨B, s, p, d⟩ n x

theorem sound_of_mem (r : Run (worldMachine w pack)) :
    r.final.Sound w ∧ ∀ x ∈ r.transitions,
      x.source.Sound w ∧ Step w pack x.source x.label x.target ∧
        Extends x.source r.final ∧ Extends x.target r.final := by
  have hsteps : ∀ x ∈ r.transitions,
      x.source.Sound w ∧ Step w pack x.source x.label x.target := by
    intro x hx
    have hs : x.source.Sound w := .of_reachable (r.reachable_of_mem hx).1
    exact ⟨hs, hs.step_of_next (r.path.step_of_mem hx)⟩
  have hext := r.path.relates (R := Extends) .refl (fun _ _ _ => .trans)
    fun x hx => (hsteps x hx).2.extends (hsteps x hx).1.valid
  exact ⟨.of_reachable r.reachable, fun x hx => ⟨(hsteps x hx).1, (hsteps x hx).2, hext x hx⟩⟩

variable {A : Identifier} {k i : ℕ} {sent : Delivery}

theorem lookup_of_received (r : Run (worldMachine w pack)) (sends : r.final.Sends A k i sent)
    {h : Identifier} {k' : ℕ} (hn : r.final.Received h k' (.client A k i)) :
    ∃ x ∈ r.transitions, x.label = .advance (.networkToUnix h) (.client A k i) ∧
      (x.source.unix h).connections.lookup sent.dstPort = some k' := by
  have hstart : All r.start.queue (Found []) := by
    obtain ⟨network, hr⟩ := r.starts
    intro x item hi
    simp [hr, World.new, empty] at hi
  have hall := found_of_path (.of_init r.starts) r.path hstart
  obtain ⟨frame, hitem⟩ := hn.exists_item
  have hfound : ∃ x ∈ r.transitions, Delivers h k' (.client A k i) x :=
    hitem.elim (hall _ _) (hall _ _)
  obtain ⟨x, hx, hlabel, tuple, hcontent, hlookup⟩ := hfound
  obtain ⟨hs, -, hext, -⟩ := (sound_of_mem r).2 x hx
  rcases hs.form hext sends hcontent with ⟨e, -, -, rfl⟩ | hinbox
  · exact ⟨x, hx, hlabel, hlookup⟩
  · cases hinbox

/-- A tuple that is not lost is somewhere. -/
theorem somewhere_of_sends (r : Run (worldMachine w pack))
    (right : w.RightIdentities A sent.hostId) (data : ¬ sent.isControl)
    (sends : r.final.Sends A k i sent)
    (kept : ∀ x ∈ r.transitions, ¬ Loses w sent.hostId sent (.client A k i) x) :
    ∃ y, Number.client A k i ∈ numbers r.final.queue y := by
  have hcarried : r.final.Issued (.client A k i) →
      ∃ y, Number.client A k i ∈ numbers r.final.queue y := by
    apply r.path.carries (P := fun u => u.Issued (.client A k i) →
      ∃ y, Number.client A k i ∈ numbers u.queue y)
    · obtain ⟨network, hr⟩ := r.starts
      simp [hr, World.new, Issued]
    · intro x hx hsource htarget
      obtain ⟨hs, step, -, hext⟩ := (sound_of_mem r).2 x hx
      by_cases hissued : x.source.Issued (.client A k i)
      · obtain ⟨y, hy⟩ := hsource hissued
        exact (step.keeps hs right data hext sends hy).resolve_right (kept x hx)
      · exact step.issues hissued htarget
  exact hcarried (List.getElem?_eq_some_iff.mp sends.1).1

theorem addressed_of_sends (r : Run (worldMachine w pack))
    (right : w.RightIdentities A sent.hostId) (data : ¬ sent.isControl)
    (sends : r.final.Sends A k i sent) :
    Addressed r A sent.hostId (.client A k i) sent.srcPort sent.dstPort sent.data := by
  obtain ⟨hfinal, hmem⟩ := sound_of_mem r
  refine ⟨fun h k' frame hitem => ?_, ?_, fun x hx => ?_, ?_⟩
  · obtain ⟨rfl, hframe, hbound⟩ := hfinal.received right sends hitem
    have hreceived : r.final.Received sent.hostId k' (.client A k i) :=
      hitem.imp (List.mem_map_of_mem ·) (List.mem_map_of_mem ·)
    exact ⟨rfl, hframe, hbound, lookup_of_received r sends hreceived⟩
  · refine r.path.at_most_once (Q := Past (.client A k i) 13) ?_ ?_ ?_
    · rintro x hx ⟨h, k', hd⟩
      exact hd.past (hmem x hx).1 (hmem x hx).2.1
    · intro x hx hpast
      exact hpast.step (hmem x hx).1.valid (hmem x hx).2.1
    · rintro x hx ⟨h, k', hd⟩
      exact hd.not_past
  · obtain ⟨hs, step, hext, -⟩ := hmem x hx
    exact step.not_process hs data hext sends
  · by_cases hlost : ∃ x ∈ r.transitions, Loses w sent.hostId sent (.client A k i) x
    · exact .inr (.inr hlost)
    · obtain ⟨y, hy⟩ := somewhere_of_sends r right data sends
        fun x hx hl => hlost ⟨x, hx, hl⟩
      by_cases hrank : y.rank ≤ 14
      · exact .inr (.inl ⟨y, hrank, hy⟩)
      · obtain ⟨h, k', hreceived⟩ := Received.of_rank hrank hy
        exact .inl ⟨k', hfinal.receiver right sends hreceived ▸ hreceived⟩

/-- Data and the answer to it reach the clients that they are addressed to. -/
theorem data_addressed (r : Run (worldMachine w pack)) {A B : Identifier}
    (right : w.RightIdentities A B) {s p : UInt16} (ports : ¬ (s = 0 ∧ p = 0)) {k i : ℕ}
    {d : Bytes} (client : (r.final.unix A).bound k = some s)
    (written : (r.final.written A k)[i]? = some (.data B p d)) :
    Addressed r A B (.client A k i) s p d ∧
      ∀ k' i' d', (r.final.unix B).bound k' = some p →
        (r.final.written B k')[i']? = some (.data A s d') →
          Addressed r B A (.client B k' i') p s d' := by
  constructor
  · have hsends : r.final.Sends A k i ⟨B, s, p, d⟩ := ⟨written, client⟩
    exact addressed_of_sends r right (by exact ports) hsends
  · intro k' i' d' client' written'
    have hsends : r.final.Sends B k' i' ⟨A, p, s, d'⟩ := ⟨written', client'⟩
    exact addressed_of_sends r right.symm (fun h => ports h.symm) hsends

end Runs

end World

def nearHost : Identifier := ⟨Vector.replicate 32 1⟩
def farHost : Identifier := ⟨Vector.replicate 32 2⟩

/-- Two daemons with one connection: the end 0 at `nearHost`, all others at `farHost`. -/
def pairWiring : Wiring where
  host e := if e = 0 then nearHost else farHost
  socket _ := 0
  remoteId e := if e = 0 then farHost else nearHost
  peer e := if e = 0 then 1 else 0
  maxRecord := 16384
  maxRecord_le := le_rfl

theorem pairWiring_right : pairWiring.RightIdentities nearHost farHost := by
  have hne : farHost ≠ nearHost := by decide
  constructor
  · intro e hhost _
    by_cases he : e = 0
    · simp [pairWiring, he]
    · simp [pairWiring, he, hne] at hhost
  · intro e hhost _
    by_cases he : e = 0
    · simp [pairWiring, he, hne.symm] at hhost
    · simp [pairWiring, he]

def binding (h : Identifier) (k : ℕ) (srcPort : UInt16) : List WorldEvent :=
  [.connect h k, .write h k 0 (.bind srcPort), .accept h k, .firstFrame h k (.client h k 0)]

/-- The frame `i` of a client goes all the way over the connection to another client. -/
def sending (i : ℕ) (dstPort : UInt16) (data : Bytes) : List WorldEvent :=
  let n := Number.client nearHost 0 i
  [.write nearHost 0 i (.data farHost dstPort data), .advance (.inbox nearHost 0) n,
    .advance (.unixRead nearHost 0) n, .advance (.unixSource nearHost) n, .send nearHost 0 n,
    .advance (.sink 0) n, .advance (.writing 0) n, .arrive 1 n, .advance (.decoded 1) n,
    .advance (.reading 1) n, .advance (.deliverFrame farHost 0) n]

def forwarding (i k : ℕ) : List WorldEvent :=
  let n := Number.client nearHost 0 i
  [.advance (.delivering farHost 0) n, .advance (.networkSource farHost) n,
    .advance (.networkToUnix farHost) n, .advance (.handing farHost) n,
    .advance (.channel farHost k) n]

def emptyNetwork (h : Identifier) : NetworkState := ⟨h, .new, [], 0⟩

open World in
/-- Data from port 5 to port 7, and the answer to it. -/
theorem data_addressed_pair :
    ∃ r : Run (worldMachine pairWiring (.ofTable [])),
      r.final.Received farHost 0 (.client nearHost 0 1) ∧
      Addressed r nearHost farHost (.client nearHost 0 1) 5 7 [9] ∧
      Addressed r farHost nearHost (.client farHost 0 1) 7 5 [8] := by
  have hrun : (exec (worldMachine pairWiring (.ofTable [])) (.new emptyNetwork)
      (binding nearHost 0 5 ++ binding farHost 0 7 ++ sending 1 7 [9] ++ forwarding 1 0 ++
        [.write farHost 0 1 (.data nearHost 5 [8])])).any (fun t =>
      decide ((t.unix nearHost).bound 0 = some 5 ∧ (t.unix farHost).bound 0 = some 7 ∧
        (t.written nearHost 0)[1]? = some (.data farHost 7 [9]) ∧
        (t.written farHost 0)[1]? = some (.data nearHost 5 [8]) ∧
        .client nearHost 0 1 ∈ numbers t.queue (.stream farHost 0))) = true := by
    decide +kernel
  have hinit : (worldMachine pairWiring (.ofTable [])).init (.new emptyNetwork) :=
    ⟨emptyNetwork, rfl⟩
  obtain ⟨t, ⟨r, rfl⟩, ht⟩ := exec_reachable hinit _ hrun
  obtain ⟨hnear, hfar, hdata, hanswer, hreceived⟩ := of_decide_eq_true ht
  have haddressed := data_addressed r pairWiring_right (by decide) hnear hdata
  exact ⟨r, .inr hreceived, haddressed.1, haddressed.2 0 1 [8] hfar hanswer⟩

end Uip
