import Uip.WorldDelivery

/-! The world without the clients of one daemon. What happens elsewhere happens there too. -/
namespace Uip
open TransitionSystem ItemQueues Transport

variable {w : Wiring} {pack : MessagePack}

/-- The queues between the clients of `A` and its network state. -/
def Place.ofClients (A : Identifier) : Place → Bool
  | inbox h _ | unixRead h _ | unixSource h | unixToNetwork h | handing h | channel h _
  | stream h _ => decide (h = A)
  | _ => false

def Number.ofClient (A : Identifier) : Number → Bool
  | client h _ _ => decide (h = A)
  | daemon .. => false

def kept (A : Identifier) (x : Place) (n : Number) : Bool := !x.ofClients A && !n.ofClient A

theorem kept_iff {A : Identifier} {x : Place} {n : Number} :
    kept A x n = true ↔ x.ofClients A = false ∧ n.ofClient A = false := by
  simp [kept]

theorem ne_of_kept_inbox {A h : Identifier} {k : ℕ} {n : Number}
    (hk : kept A (.inbox h k) n = true) : h ≠ A := by
  simpa [Place.ofClients] using (kept_iff.mp hk).1

/-- An event that is no doing of a client of `A`. -/
def WorldEvent.visible (A : Identifier) : WorldEvent → Bool
  | connect h _ | write h _ _ _ | accept h _ | endOfStream h _ => !decide (h = A)
  | firstFrame h k n => kept A (.inbox h k) n
  | advance x n | lose x n => kept A x n
  | send h _ n => kept A (.unixToNetwork h) n
  | arrive e n => kept A (.flight e) n
  | ping .. | control .. => true
  | pong e _ n => kept A (.decoded e) n
  | process h j n => kept A (.delivering h j) n
  | reply h j _ _ n => kept A (.replying h j) n

namespace World

variable {s t : World} {e : WorldEvent} {A : Identifier} {x y : Place} {n : Number}

def purge (A : Identifier) (s : World) : World :=
  { s with
    unix := Function.update s.unix A .new
    queue := keep (kept A) s.queue
    written := Function.update s.written A fun _ => [] }

section Parts

theorem unix_purge {h : Identifier} (hne : h ≠ A) : (s.purge A).unix h = s.unix h := by
  simp [purge, hne]

theorem written_purge {h : Identifier} (hne : h ≠ A) : (s.purge A).written h = s.written h := by
  simp [purge, hne]

theorem content_purge (hk : kept A x n = true) : (s.purge A).content x n = s.content x n :=
  find_keep s.queue hk

theorem first_purge (hk : kept A x n = true) (h : s.first x = some n) :
    (s.purge A).first x = some n := head_keep hk h

theorem room_purge (h : s.room y = true) : (s.purge A).room y = true := by
  have hle := length_keep_le (p := kept A) s.queue y
  unfold room at h ⊢
  cases hc : y.capacity with
  | none => rfl
  | some c =>
    rw [hc] at h
    have hlt : (s.queue y).length < c := of_decide_eq_true h
    exact decide_eq_true (Nat.lt_of_le_of_lt hle hlt)

theorem isEmpty_purge (h : (s.queue y).isEmpty = true) :
    ((s.purge A).queue y).isEmpty = true := by
  have hnil : s.queue y = [] := List.isEmpty_iff.mp h
  simp [purge, keep, hnil]

theorem purge_setUnix {h : Identifier} (hne : h ≠ A) (u : UnixState) :
    (s.setUnix h u).purge A = (s.purge A).setUnix h u := by
  simp only [purge, setUnix, Function.update_comm hne]

theorem purge_setUnix_self (u : UnixState) : (s.setUnix A u).purge A = s.purge A := by
  simp only [purge, setUnix, Function.update_idem]

theorem purge_take (hk : kept A x n = true) : (s.take x n).purge A = (s.purge A).take x n := by
  simp only [purge, take, keep_erase, hk, if_true]

theorem purge_take_not (hk : kept A x n = false) : (s.take x n).purge A = s.purge A := by
  simp [purge, take, keep_erase, hk]

theorem purge_pass {c : y.Content} (hx : kept A x n = true) (hy : kept A y n = true) :
    (s.pass x n y c).purge A = (s.purge A).pass x n y c := by
  simp only [purge, pass, keep_push, keep_erase, hx, hy, if_true]

theorem purge_pass_not {c : y.Content} (hy : kept A y n = false) :
    (s.pass x n y c).purge A = (s.take x n).purge A := by
  simp [purge, pass, take, keep_push, hy]

theorem purge_issue (s : World) (e : ℕ) (frame : Frame) :
    (s.issue e frame).purge A = (s.purge A).issue e frame := by
  have hk : kept A (.sink e) (.daemon e (s.sent e)) = true := rfl
  simp only [purge, issue, keep_push, hk, if_true]

theorem Framed.purge (h : s.Framed) : (s.purge A).Framed where
  flight x item hi := h.flight x item (List.mem_of_mem_filter hi)
  buffer := h.buffer

end Parts

section Visible

theorem stage_purge {c : x.Content} (hx : x.ofClients A = false) (hne : x ≠ .networkToUnix A)
    (hgo : s.stage w x c ≠ .stuck) : (s.purge A).stage w x c = s.stage w x c := by
  cases x with
  | inbox h k =>
    have hh : h ≠ A := by simpa [Place.ofClients] using hx
    simp only [stage, unix_purge hh]
  | networkToUnix h =>
    have hh : h ≠ A := fun h' => hne (congrArg _ h')
    simp only [stage, unix_purge hh]
  | decoded e =>
    by_cases hidle : (s.queue (.reading e)).isEmpty = true
    · simp only [stage, hidle, isEmpty_purge hidle]
    · simp [stage, hidle] at hgo
  | deliverFrame h j =>
    by_cases hidle : (s.queue (.replying h j)).isEmpty = true
    · simp only [stage, hidle, isEmpty_purge hidle]
    · simp [stage, hidle] at hgo
  | networkSource h =>
    by_cases hidle : (s.queue (.handing h)).isEmpty = true
    · simp only [stage, hidle, isEmpty_purge hidle]
    · simp [stage, hidle] at hgo
  | _ => rfl

/-- The clients of `A` are not there to deliver to. -/
theorem stage_purge_self (tuple : Delivery) :
    (s.purge A).stage w (.networkToUnix A) tuple = .drop := by
  simp [stage, purge, UnixState.deliverFrame, UnixState.new]

theorem ready_purge {effect : Effect} (h : s.ready effect = true) :
    (s.purge A).ready effect = true := by
  cases effect with
  | pass y c => exact room_purge h
  | drop | stop => rfl
  | stuck => exact h

theorem ne_stuck_of_ready {effect : Effect} (h : s.ready effect = true) : effect ≠ .stuck := by
  rintro rfl
  simp [ready] at h

theorem enabled_advance_purge (hk : kept A x n = true)
    (he : s.enabled w pack (.advance x n)) : (s.purge A).enabled w pack (.advance x n) := by
  obtain ⟨hfirst, hready⟩ := he
  refine ⟨first_purge hk hfirst, ?_⟩
  obtain ⟨c, found⟩ := content_of_first hfirst
  rw [effect_eq found] at hready
  rw [effect_eq ((content_purge hk).trans found)]
  by_cases hx : x = .networkToUnix A
  · subst hx
    rw [stage_purge_self]
    rfl
  · rw [stage_purge (kept_iff.mp hk).1 hx (ne_stuck_of_ready hready)]
    exact ready_purge hready

/-- What can happen can happen without the clients of `A`, unless it is their doing. -/
theorem enabled_purge (hv : e.visible A = true) (he : s.enabled w pack e) :
    (s.purge A).enabled w pack e := by
  cases e with
  | connect h k | write h k i frame | accept h k =>
    have hh : h ≠ A := by simpa [WorldEvent.visible] using hv
    simpa only [enabled, unix_purge hh, written_purge hh] using he
  | endOfStream h k =>
    have hh : h ≠ A := by simpa [WorldEvent.visible] using hv
    refine ⟨isEmpty_purge he.1, ?_⟩
    rw [unix_purge hh]
    exact he.2
  | firstFrame h k n =>
    have hh := ne_of_kept_inbox hv
    refine ⟨?_, first_purge hv he.2⟩
    rw [unix_purge hh]
    exact he.1
  | advance x n => exact enabled_advance_purge hv he
  | send h e n =>
    obtain ⟨hfirst, hhost, hroom, hany⟩ := he
    exact ⟨first_purge hv hfirst, hhost, room_purge hroom, by rwa [content_purge hv]⟩
  | arrive e n =>
    obtain ⟨hsome, hdecoded, hreading⟩ := he
    exact ⟨by rwa [content_purge hv], isEmpty_purge hdecoded, isEmpty_purge hreading⟩
  | ping e i => exact ⟨he.1, room_purge he.2⟩
  | pong e i n =>
    obtain ⟨hi, hroom, hfirst, hreading, hany⟩ := he
    exact ⟨hi, room_purge hroom, first_purge hv hfirst, isEmpty_purge hreading, by
      rwa [content_purge hv]⟩
  | control e i message => exact ⟨he.1, room_purge he.2.1, he.2.2⟩
  | process h j n =>
    obtain ⟨hfirst, hroom, hany⟩ := he
    exact ⟨first_purge hv hfirst, room_purge hroom, by rwa [content_purge hv]⟩
  | reply h j e i n =>
    obtain ⟨hi, hroom, hfirst, hhost, hany⟩ := he
    exact ⟨hi, room_purge hroom, first_purge hv hfirst, hhost, by rwa [content_purge hv]⟩
  | lose x n =>
    change ((s.purge A).content x n).isSome = true
    rw [content_purge hv]
    exact he

theorem Hop.ofClients {c : x.Content} {c' : y.Content} (h : s.Hop w x c y c')
    (hne : x ≠ .networkToUnix A) : y.ofClients A = x.ofClients A := by
  cases h with
  | networkToUnix h k tuple registered =>
    have hh : h ≠ A := fun h' => hne (congrArg _ h')
    simp [Place.ofClients, hh]
  | _ => rfl

theorem next_advance_purge (hk : kept A x n = true) (he : s.enabled w pack (.advance x n)) :
    (s.next w pack (.advance x n)).purge A = (s.purge A).next w pack (.advance x n) := by
  obtain ⟨hfirst, hready⟩ := he
  obtain ⟨c, found⟩ := content_of_first hfirst
  rw [effect_eq found] at hready
  simp only [next]
  rw [effect_eq found, effect_eq ((content_purge hk).trans found)]
  by_cases hx : x = .networkToUnix A
  · subst hx
    rw [stage_purge_self]
    cases hs : s.stage w (.networkToUnix A) c with
    | pass y c' =>
      have hy : kept A y n = false := by
        cases Hop.of_stage hs
        simp [kept, Place.ofClients]
      exact (purge_pass_not hy).trans (purge_take hk)
    | drop => exact purge_take hk
    | stop h k => cases Stops.of_stage hs
    | stuck => simp [hs, ready] at hready
  · rw [stage_purge (kept_iff.mp hk).1 hx (ne_stuck_of_ready hready)]
    cases hs : s.stage w x c with
    | pass y c' =>
      have hy : kept A y n = true :=
        kept_iff.mpr ⟨((Hop.of_stage hs).ofClients hx).trans (kept_iff.mp hk).1,
          (kept_iff.mp hk).2⟩
      exact purge_pass hk hy
    | drop => exact purge_take hk
    | stop h k =>
      cases Stops.of_stage hs with
      | inbox _ _ srcPort frame reads unhandled =>
        have hh := ne_of_kept_inbox hk
        simp only [apply, purge_setUnix hh, purge_take hk, unix_purge hh]
    | stuck => rfl

theorem next_purge (hf : s.Framed) (hv : e.visible A = true) (he : s.enabled w pack e) :
    (s.next w pack e).purge A = (s.purge A).next w pack e := by
  cases e with
  | connect h k | accept h k | endOfStream h k =>
    have hh : h ≠ A := by simpa [WorldEvent.visible] using hv
    simp only [next, purge_setUnix hh, unix_purge hh]
  | write h k i frame =>
    have hh : h ≠ A := by simpa [WorldEvent.visible] using hv
    have hk : kept A (.inbox h k) (.client h k i) = true := by
      simp [kept, Place.ofClients, Number.ofClient, hh]
    simp only [next, purge, keep_push, hk, if_true, Function.update_comm hh,
      Function.update_of_ne hh]
  | firstFrame h k n =>
    have hh := ne_of_kept_inbox hv
    obtain ⟨frame, found⟩ := content_of_first he.2
    have found' := (content_purge hv).trans found
    simp only [next, found, found', Option.elim_some, purge_setUnix hh, purge_take hv,
      unix_purge hh]
  | advance x n => exact next_advance_purge hv he
  | send h e n =>
    obtain ⟨tuple, found⟩ := content_of_first he.1
    have found' := (content_purge hv).trans found
    have hy : kept A (.sink e) n = true := kept_iff.mpr ⟨rfl, (kept_iff.mp hv).2⟩
    simp only [next, found, found', Option.elim_some]
    exact purge_pass hv hy
  | arrive e n =>
    obtain ⟨record, found⟩ := Option.isSome_iff_exists.mp he.1
    obtain ⟨f, hb, rfl⟩ := hf.flight.of_find found
    have found' := (content_purge hv).trans found
    have hy : kept A (.decoded e) n = true := kept_iff.mpr ⟨rfl, (kept_iff.mp hv).2⟩
    simp only [next, found, found', Option.elim_some]
    rw [hf.arrive hb, hf.purge.arrive hb]
    exact purge_pass hv hy
  | ping e i => exact purge_issue s e .ping
  | pong e i n =>
    simp only [next]
    rw [purge_issue, purge_take hv]
  | control e i message =>
    obtain ⟨data, hd⟩ := Option.isSome_iff_exists.mp he.2.2
    simp only [next, hd, Option.elim_some]
    exact purge_issue s e (.data 0 0 data)
  | process h j n =>
    obtain ⟨tuple, found, hresult⟩ := (Option.any_eq_true ..).mp he.2.2
    have found' := (content_purge hv).trans found
    obtain ⟨⟨network, reply⟩, hp⟩ := Option.isSome_iff_exists.mp (of_decide_eq_true hresult).2
    have hp' : ((s.purge A).network h).processControlMessage pack tuple.hostId tuple.data =
        some (network, reply) := hp
    simp only [next, found, found', Option.elim_some, World.process, hp, hp']
    cases reply with
    | none =>
      have htake := purge_take (s := s) hv
      simp only [← htake]
      rfl
    | some reply =>
      have hy : kept A (.replying h j) n = true := kept_iff.mpr ⟨rfl, (kept_iff.mp hv).2⟩
      have hpass := purge_pass (s := s) (c := reply) hv hy
      simp only [← hpass]
      rfl
  | reply h j e i n =>
    obtain ⟨reply, found, hresult⟩ := (Option.any_eq_true ..).mp he.2.2.2.2
    have found' := (content_purge hv).trans found
    obtain ⟨data, hd⟩ := Option.isSome_iff_exists.mp (of_decide_eq_true hresult).2
    simp only [next, found, found', Option.elim_some, World.reply, hd]
    have hissue := purge_issue (A := A) (s.take (.replying h j) n) e (.data 0 0 data)
    rw [purge_take hv] at hissue
    simp only [← hissue]
    rfl
  | lose x n => exact purge_take hv

/-- A step that is no doing of a client of `A` is a step of the world without them. -/
theorem step_purge (hf : s.Framed) (hv : e.visible A = true)
    (step : (worldMachine w pack).step s e = some t) :
    (worldMachine w pack).step (s.purge A) e = some (t.purge A) := by
  obtain ⟨he, rfl⟩ := guarded_step.mp step
  exact guarded_step.mpr ⟨enabled_purge hv he, (next_purge hf hv he).symm⟩

end Visible

end World

end Uip
