import Uip.TransportConnection

/-!
# Keepalive

The read task of a connection gives up when 20 seconds pass without a frame, and the ping task
sends a frame every 15 seconds. Times are in milliseconds. A task goes on as soon as what it waits
for is there; how long each of its awaits takes is an input.
-/
namespace Uip.Transport

def timeoutAfter : ℕ := 20000

def pingInterval : ℕ := 15000

/-- What the read half yields next, and when that is there: `none` at the end of the stream. The
task then waits for `blocked` until the Pong or the data is taken, or the data sink is closed.
`timeoutFirst` is the choice of `select!` where the timeout is ready as well. -/
structure Incoming where
  arrival : ℕ
  item : Option (Except Unit Frame)
  blocked : ℕ
  taken : Bool
  timeoutFirst : Bool
  deriving DecidableEq

inductive ReadEnd
  | timedOut
  | decodeError
  | endOfStream
  | sinkClosed
  deriving DecidableEq

inductive Turn
  | again (now : ℕ)
  | ended (reason : ReadEnd) (time : ℕ)
  deriving DecidableEq

namespace Incoming

def late (i : Incoming) (deadline : ℕ) : Prop :=
  deadline < i.arrival ∨ (deadline = i.arrival ∧ i.timeoutFirst = true)

instance (i : Incoming) (deadline : ℕ) : Decidable (i.late deadline) :=
  inferInstanceAs (Decidable (_ ∨ _))

def isPing (i : Incoming) : Bool := i.item == some (.ok .ping)

def handle (i : Incoming) (now : ℕ) : Turn :=
  match i.item with
  | some (.ok .ping) => .again (now + i.blocked)
  | some (.ok .pong) => .again now
  | some (.ok (.data _ _ _)) =>
    if i.taken then .again (now + i.blocked) else .ended .sinkClosed (now + i.blocked)
  | some (.error _) => .ended .decodeError now
  | none => .ended .endOfStream now

def turn (i : Incoming) (now : ℕ) : Turn :=
  if i.late (now + timeoutAfter) then .ended .timedOut (now + timeoutAfter)
  else i.handle (max now i.arrival)

end Incoming

structure ReadLog where
  handled : List Incoming
  reason : ReadEnd
  time : ℕ
  deriving DecidableEq

/-- The loop of `spawn_read_task`, from a turn that begins at `now`; nothing comes after the last
of the items. -/
def readLoop (now : ℕ) : List Incoming → ReadLog
  | [] => ⟨[], .timedOut, now + timeoutAfter⟩
  | i :: rest =>
    match i.turn now with
    | .again later =>
      let log := readLoop later rest
      ⟨i :: log.handled, log.reason, log.time⟩
    | .ended reason time => ⟨[], reason, time⟩

/-- For how long the task waits at most while it handles the items. -/
def waited : List Incoming → ℕ
  | [] => 0
  | i :: rest => i.blocked + waited rest

/-- The times at which the loop of `spawn_ping_task` has put its pings into the sink, from a turn
that begins at `now`. The interval is next due at `due`, and the task waits for room in the sink
for as long as `blocked` says. A tick that is missed meanwhile is made up for at once. -/
def pingLoop (due now : ℕ) : List ℕ → List ℕ
  | [] => []
  | blocked :: rest =>
    let sent := max due now + blocked
    sent :: pingLoop (due + pingInterval) sent rest

/-- What `stall` and `delay` bound: how long a ping waits for room in the sink of the peer, and how
long it then takes until the read half of this end has it. `sent` is when the pings were sent. -/
structure KeptAlive (stall delay : ℕ) (stalls sent : List ℕ) (items : List Incoming) : Prop where
  stalled : ∀ blocked ∈ stalls, blocked ≤ stall
  ordered : items.Pairwise fun i j => i.arrival ≤ j.arrival
  delayed : List.Forall₂ (fun time i => time ≤ i.arrival ∧ i.arrival ≤ time + delay) sent
    (items.filter Incoming.isPing)

namespace Incoming

variable {i : Incoming} {now later time : ℕ} {reason : ReadEnd}

theorem handle_again (h : i.handle now = .again later) :
    now ≤ later ∧ later ≤ now + i.blocked := by
  unfold handle at h
  split at h
  · cases h
    omega
  · cases h
    omega
  · split_ifs at h
    cases h
    omega
  · cases h
  · cases h

theorem handle_ended (h : i.handle now = .ended reason time) :
    reason ≠ .timedOut ∧ time ≤ now + i.blocked := by
  unfold handle at h
  split at h
  · cases h
  · cases h
  · split_ifs at h
    cases h
    exact ⟨ReadEnd.noConfusion, le_refl _⟩
  · cases h
    exact ⟨ReadEnd.noConfusion, Nat.le_add_right _ _⟩
  · cases h
    exact ⟨ReadEnd.noConfusion, Nat.le_add_right _ _⟩

theorem turn_again (h : i.turn now = .again later) :
    max now i.arrival ≤ later ∧ later ≤ max now i.arrival + i.blocked := by
  unfold turn at h
  split_ifs at h
  exact handle_again h

theorem turn_timedOut (h : i.turn now = .ended .timedOut time) :
    time = now + timeoutAfter ∧ time ≤ i.arrival := by
  unfold turn at h
  split_ifs at h with hl
  · cases h
    rcases hl with hlt | ⟨heq, -⟩
    · exact ⟨rfl, Nat.le_of_lt hlt⟩
    · exact ⟨rfl, Nat.le_of_eq heq⟩
  · exact absurd rfl (handle_ended h).1

theorem turn_ended (h : i.turn now = .ended reason time) :
    time ≤ max now i.arrival + i.blocked + timeoutAfter := by
  unfold turn at h
  split_ifs at h
  · cases h
    omega
  · exact Nat.le_add_right_of_le (handle_ended h).2

end Incoming

theorem readLoop_again {i : Incoming} {now later : ℕ} (h : i.turn now = .again later)
    (rest : List Incoming) : readLoop now (i :: rest) =
      ⟨i :: (readLoop later rest).handled, (readLoop later rest).reason,
        (readLoop later rest).time⟩ := by
  rw [readLoop, h]

theorem readLoop_ended {i : Incoming} {now time : ℕ} {reason : ReadEnd}
    (h : i.turn now = .ended reason time) (rest : List Incoming) :
    readLoop now (i :: rest) = ⟨[], reason, time⟩ := by
  rw [readLoop, h]

namespace KeptAlive

variable {stall delay due last blocked : ℕ} {stalls sent : List ℕ} {i : Incoming}
  {items : List Incoming}

theorem arrival_le (h : KeptAlive stall delay stalls (pingLoop due last stalls) (i :: items))
    (hlast : last ≤ due) (hne : stalls ≠ []) : i.arrival ≤ due + stall + delay := by
  cases stalls with
  | nil => exact absurd rfl hne
  | cons blocked rest =>
    have hb := h.stalled blocked (List.mem_cons_self ..)
    have hd := h.delayed
    rw [pingLoop, max_eq_left hlast] at hd
    cases hp : i.isPing with
    | true =>
      rw [List.filter_cons_of_pos hp] at hd
      have hfirst := (List.forall₂_cons.mp hd).1
      omega
    | false =>
      rw [List.filter_cons_of_neg (by simp [hp])] at hd
      obtain ⟨j, others, hfirst, -, hj⟩ := List.forall₂_cons_left_iff.mp hd
      have hmem : j ∈ items := List.mem_of_mem_filter (hj ▸ List.mem_cons_self ..)
      have hle := (List.pairwise_cons.mp h.ordered).1 j hmem
      omega

theorem tail_of_ping
    (h : KeptAlive stall delay (blocked :: stalls) (pingLoop due last (blocked :: stalls))
      (i :: items)) (hlast : last ≤ due) (hp : i.isPing = true) :
    blocked ≤ stall ∧ due ≤ i.arrival ∧ KeptAlive stall delay stalls
      (pingLoop (due + pingInterval) (due + blocked) stalls) items := by
  have hd := h.delayed
  rw [List.filter_cons_of_pos hp, pingLoop, max_eq_left hlast] at hd
  obtain ⟨hfirst, hothers⟩ := List.forall₂_cons.mp hd
  exact ⟨h.stalled blocked (List.mem_cons_self ..), by omega,
    fun b hb => h.stalled b (List.mem_cons_of_mem _ hb), h.ordered.of_cons, hothers⟩

theorem tail_of_not_ping (h : KeptAlive stall delay stalls sent (i :: items))
    (hp : i.isPing = false) : KeptAlive stall delay stalls sent items := by
  have hd := h.delayed
  rw [List.filter_cons_of_neg (by simp [hp])] at hd
  exact ⟨h.stalled, h.ordered.of_cons, hd⟩

end KeptAlive

/-- While the pings come in time, the next one is due before the timeout of the read task. -/
theorem readLoop_outlives {stall delay : ℕ} (hbound : stall + delay < timeoutAfter - pingInterval)
    {items : List Incoming} {now due last : ℕ} {stalls : List ℕ}
    (hdue : due ≤ now + pingInterval) (hlast : last ≤ due)
    (hkept : KeptAlive stall delay stalls (pingLoop due last stalls) items)
    (hend : (readLoop now items).reason = .timedOut) :
    due + pingInterval * stalls.length + (timeoutAfter - pingInterval) ≤
      (readLoop now items).time := by
  induction items generalizing now due last stalls with
  | nil =>
    cases stalls with
    | nil =>
      simp only [readLoop, timeoutAfter, pingInterval, List.length_nil] at *
      omega
    | cons blocked rest => cases hkept.delayed
  | cons i rest ih =>
    cases ht : i.turn now with
    | ended reason time =>
      rw [readLoop_ended ht] at hend ⊢
      cases show reason = .timedOut from hend
      obtain ⟨htime, hlate⟩ := Incoming.turn_timedOut ht
      -- a ping that is still to come would be there before the timeout
      have hnone : stalls = [] := by
        by_contra hne
        have harrival := hkept.arrival_le hlast hne
        simp only [timeoutAfter, pingInterval] at *
        omega
      simp only [timeoutAfter, pingInterval, hnone, List.length_nil] at *
      omega
    | again later =>
      obtain ⟨hlater, -⟩ := Incoming.turn_again ht
      rw [readLoop_again ht] at hend ⊢
      cases hp : i.isPing with
      | false =>
        exact ih (by omega) hlast (hkept.tail_of_not_ping hp) hend
      | true =>
        cases stalls with
        | nil =>
          have hd := hkept.delayed
          rw [List.filter_cons_of_pos hp] at hd
          cases hd
        | cons blocked more =>
          obtain ⟨hb, harrival, htail⟩ := hkept.tail_of_ping hlast hp
          have hshort : blocked ≤ pingInterval := by
            simp only [timeoutAfter, pingInterval] at *
            omega
          have hnext := ih (by omega) (Nat.add_le_add_left hshort due) htail hend
          rw [List.length_cons]
          simp only [Nat.mul_add, Nat.mul_one] at hnext ⊢
          omega

/-- The read task ends at the latest when the timeout has passed after the last item, and after
what the task waited for in between. -/
theorem readLoop_time_le (items : List Incoming) (now quiet : ℕ) (hnow : now ≤ quiet)
    (hquiet : ∀ i ∈ items, i.arrival ≤ quiet) :
    (readLoop now items).time ≤ quiet + waited items + timeoutAfter := by
  induction items generalizing now quiet with
  | nil => exact Nat.add_le_add_right hnow timeoutAfter
  | cons i rest ih =>
    have hi := hquiet i (List.mem_cons_self ..)
    rw [waited]
    cases ht : i.turn now with
    | ended reason time =>
      have htime := Incoming.turn_ended ht
      rw [readLoop_ended ht]
      show time ≤ _
      omega
    | again later =>
      obtain ⟨-, hlater⟩ := Incoming.turn_again ht
      have hle := ih later (quiet + i.blocked) (by omega) fun j hj =>
        Nat.le_add_right_of_le (hquiet j (List.mem_cons_of_mem _ hj))
      rw [readLoop_again ht]
      show (readLoop later rest).time ≤ _
      omega

theorem readLoop_timeout {items : List Incoming} (now : ℕ)
    (hordered : items.Pairwise fun i j => i.arrival ≤ j.arrival) :
    ∃ rest, items = (readLoop now items).handled ++ rest ∧
      ((readLoop now items).reason = .timedOut →
        now + timeoutAfter ≤ (readLoop now items).time ∧
        (∀ i ∈ (readLoop now items).handled,
          i.arrival + timeoutAfter ≤ (readLoop now items).time) ∧
        ∀ i ∈ rest, (readLoop now items).time ≤ i.arrival) := by
  induction items generalizing now with
  | nil => exact ⟨[], rfl, fun _ => ⟨le_refl _, by simp [readLoop], by simp⟩⟩
  | cons i rest ih =>
    obtain ⟨hfirst, hlater⟩ := List.pairwise_cons.mp hordered
    cases ht : i.turn now with
    | ended reason time =>
      rw [readLoop_ended ht]
      refine ⟨i :: rest, rfl, fun hend => ?_⟩
      cases show reason = .timedOut from hend
      obtain ⟨htime, hlate⟩ := Incoming.turn_timedOut ht
      refine ⟨Nat.le_of_eq htime.symm, by simp, ?_⟩
      intro j hj
      rcases List.mem_cons.mp hj with rfl | hj
      · exact hlate
      · exact Nat.le_trans hlate (hfirst j hj)
    | again later =>
      obtain ⟨hle, -⟩ := Incoming.turn_again ht
      obtain ⟨others, hothers, htimeout⟩ := ih later hlater
      rw [readLoop_again ht]
      refine ⟨others, congrArg (i :: ·) hothers, fun hend => ?_⟩
      obtain ⟨htime, hhandled, hrest⟩ := htimeout hend
      refine ⟨?_, ?_, hrest⟩
      · show now + timeoutAfter ≤ (readLoop later rest).time
        omega
      · intro j hj
        show j.arrival + timeoutAfter ≤ (readLoop later rest).time
        rcases List.mem_cons.mp hj with rfl | hj
        · omega
        · exact hhandled j hj

/-- Whatever the stalls up to `stall` and the delays up to `delay`, and whatever else arrives and
waits in between, the read task outlives each ping of its peer by the timeout if and only if the
two bounds together are below what the timeout leaves over the interval. -/
theorem outlives_pings_iff (stall delay : ℕ) :
    (∀ (now due : ℕ) (stalls : List ℕ) (items : List Incoming), due ≤ now + pingInterval →
      KeptAlive stall delay stalls (pingLoop due due stalls) items →
      (readLoop now items).reason = .timedOut →
      due + pingInterval * stalls.length + (timeoutAfter - pingInterval) ≤
        (readLoop now items).time) ↔
    stall + delay < timeoutAfter - pingInterval := by
  constructor
  · intro h
    by_contra hbound
    simp only [timeoutAfter, pingInterval] at hbound
    -- the second ping is there when the timeout is
    let stalls : List ℕ := [0, min stall 5000]
    let items : List Incoming :=
      [⟨0, some (.ok .ping), 0, true, true⟩, ⟨20000, some (.ok .ping), 0, true, true⟩]
    have hkept : KeptAlive stall delay stalls (pingLoop 0 0 stalls) items := by
      refine ⟨?_, ?_, ?_⟩
      · intro blocked hmem
        rcases List.mem_pair.mp hmem with rfl | rfl
        · exact Nat.zero_le stall
        · exact Nat.min_le_left stall 5000
      · simp [items]
      · have hfilter : items.filter Incoming.isPing = items := rfl
        rw [hfilter]
        simp only [stalls, items, pingLoop, pingInterval, List.forall₂_cons]
        exact ⟨by omega, by omega, .nil⟩
    have hle := h 0 0 stalls items (Nat.zero_le _) hkept rfl
    have htime : (readLoop 0 items).time = 20000 := rfl
    simp only [htime, stalls, timeoutAfter, pingInterval, List.length_cons, List.length_nil] at hle
    omega
  · intro hbound now due stalls items hdue hkept hend
    exact readLoop_outlives hbound hdue (le_refl due) hkept hend

/-- A timeout means that nothing was there for as long as it takes, and a peer that is silent is
noticed. -/
theorem silence_noticed (now : ℕ) (items : List Incoming)
    (hordered : items.Pairwise fun i j => i.arrival ≤ j.arrival) :
    ∃ rest, items = (readLoop now items).handled ++ rest ∧
      ((readLoop now items).reason = .timedOut →
        (∀ i ∈ (readLoop now items).handled,
          i.arrival + timeoutAfter ≤ (readLoop now items).time) ∧
        ∀ i ∈ rest, (readLoop now items).time ≤ i.arrival) ∧
      ∀ quiet, now ≤ quiet → (∀ i ∈ items, i.arrival ≤ quiet) →
        (readLoop now items).time ≤ quiet + waited items + timeoutAfter := by
  obtain ⟨rest, hitems, htimeout⟩ := readLoop_timeout now hordered
  exact ⟨rest, hitems, fun hend => (htimeout hend).2,
    fun quiet hnow hquiet => readLoop_time_le items now quiet hnow hquiet⟩

/-- Data that the data sink takes up slowly, and a stream that ends only after the timeout. -/
def slowThenSilent : List Incoming :=
  [⟨5, some (.ok (.data 1 2 [7])), 30, true, false⟩, ⟨40000, none, 0, true, false⟩]

theorem silence_noticed_slowThenSilent :
    (∃ rest, slowThenSilent = (readLoop 0 slowThenSilent).handled ++ rest ∧
      ∀ i ∈ rest, 20035 ≤ i.arrival) ∧ (readLoop 0 slowThenSilent).time ≤ 60030 := by
  obtain ⟨rest, hitems, htimeout, hquiet⟩ := silence_noticed 0 slowThenSilent (by
    simp [slowThenSilent])
  have hrest : ∀ i ∈ rest, 20035 ≤ i.arrival := (htimeout rfl).2
  exact ⟨⟨rest, hitems, hrest⟩, hquiet 40000 (Nat.zero_le _) (by simp [slowThenSilent])⟩

end Uip.Transport
