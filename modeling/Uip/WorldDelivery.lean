import Uip.WorldRoute

/-! How one step moves the items of clients: onwards, to the client that is registered, and out of
the queues only where they are lost. -/
namespace Uip
open TransitionSystem ItemQueues Transport

variable {w : Wiring} {pack : MessagePack}

def Place.rank : Place → ℕ
  | inbox .. => 0
  | unixRead .. => 1
  | unixSource _ => 2
  | unixToNetwork _ => 3
  | sink _ => 4
  | writing _ => 5
  | flight _ => 6
  | decoded _ => 7
  | reading _ => 8
  | deliverFrame .. => 9
  | delivering .. => 10
  | replying .. => 11
  | networkSource _ => 12
  | networkToUnix _ => 13
  | handing _ => 14
  | channel .. => 15
  | stream .. => 16

namespace World

variable {s t u : World} {e : WorldEvent} {n : Number}

theorem Hop.rank_lt {x y : Place} {c : x.Content} {c' : y.Content} (h : s.Hop w x c y c') :
    x.rank < y.rank := by
  cases h <;> simp only [Place.rank] <;> omega

section Ranks

theorem Step.origin (hs : Step w pack s e t) {y : Place} (hn : n ∈ numbers t.queue y) :
    n ∈ numbers s.queue y ∨
    (∃ x c c', e = .advance x n ∧ s.content x n = some c ∧ s.Hop w x c y c') ∨
    (∃ x, n ∈ numbers s.queue x ∧ x.rank < y.rank ∧ y.rank ≤ 11) ∨
    (¬ s.Issued n ∧ ((∃ h k, y = .inbox h k ∧ ∃ i, n = .client h k i) ∨
      ∃ e, y = .sink e ∧ ∃ i, n = .daemon e i)) := by
  have hmoved : ∀ {x z : Place} {c : x.Content} {c' : z.Content} {m : Number},
      s.content x m = some c → x.rank < z.rank ∧ z.rank ≤ 11 →
      n ∈ numbers (push (erase s.queue x m) z m c') y → n ∈ numbers s.queue y ∨
      ∃ x, n ∈ numbers s.queue x ∧ x.rank < y.rank ∧ y.rank ≤ 11 := by
    intro x z c c' m found hrank hn
    rcases mem_numbers_push.mp hn with hn | ⟨rfl, rfl⟩
    · exact .inl (mem_numbers_of_erase hn)
    · exact .inr ⟨x, mem_numbers_of_find found, hrank⟩
  have hsink : ∀ {q : Queues Number Place.Content} {e : ℕ} {frame : Frame},
      n ∈ numbers (push q (.sink e) (.daemon e (s.sent e)) frame) y → n ∈ numbers q y ∨
      (¬ s.Issued n ∧ ∃ e, y = .sink e ∧ ∃ i, n = .daemon e i) := by
    intro q e frame hn
    rcases mem_numbers_push.mp hn with hn | ⟨rfl, rfl⟩
    · exact .inl hn
    · exact .inr ⟨lt_irrefl (s.sent e), e, rfl, _, rfl⟩
  cases hs with
  | connect | accept | endOfStream => exact .inl hn
  | firstFrame | drop | stop | process | lose => exact .inl (mem_numbers_of_erase hn)
  | write h k frame =>
    rcases mem_numbers_push.mp hn with hn | ⟨rfl, rfl⟩
    · exact .inl hn
    · exact .inr (.inr (.inr ⟨lt_irrefl (s.written h k).length, .inl ⟨h, k, rfl, _, rfl⟩⟩))
  | pass x m c z c' found hop =>
    rcases mem_numbers_push.mp hn with hn | ⟨rfl, rfl⟩
    · exact .inl (mem_numbers_of_erase hn)
    · exact .inr (.inl ⟨x, c, c', rfl, found, hop⟩)
  | send e m tuple found | arrive e m f bounded found | answer h j m tuple network reply found =>
    exact (hmoved found (by simp [Place.rank]) hn).imp_right fun h => .inr (.inl h)
  | ping | control =>
    exact (hsink hn).imp_right fun h => .inr (.inr (h.imp_right .inr))
  | pong | reply =>
    exact (hsink hn).imp mem_numbers_of_erase fun h => .inr (.inr (h.imp_right .inr))

/-- An item has gone past the places up to a rank, or has gone. -/
def Past (n : Number) (rank : ℕ) (s : World) : Prop :=
  s.Issued n ∧ ∀ x, n ∈ numbers s.queue x → rank < x.rank

theorem Past.step {rank : ℕ} (h : s.Past n rank) (hv : s.Valid) (hs : Step w pack s e t) :
    t.Past n rank := by
  refine ⟨(hs.extends hv).issued h.1, fun y hy => ?_⟩
  rcases hs.origin hy with hy | ⟨x, c, c', -, found, hop⟩ | ⟨x, hx, hlt, -⟩ | ⟨hnew, -⟩
  · exact h.2 y hy
  · exact Nat.lt_trans (h.2 x (mem_numbers_of_find found)) hop.rank_lt
  · exact Nat.lt_trans (h.2 x hx) hlt
  · exact absurd h.1 hnew

end Ranks

section Deliveries

/-- The loop from the network to the clients hands an item to the client `k`. -/
def Delivers (h : Identifier) (k : ℕ) (n : Number) (x : Transition World WorldEvent) : Prop :=
  x.label = .advance (.networkToUnix h) n ∧
    ∃ tuple, x.source.content (.networkToUnix h) n = some tuple ∧
      (x.source.unix h).connections.lookup tuple.dstPort = some k

theorem Delivers.past (hs : s.Sound w) (step : Step w pack s e t) {h : Identifier} {k : ℕ}
    (hd : Delivers h k n ⟨s, e, t⟩) : t.Past n 13 := by
  obtain ⟨rfl, tuple, hfound, hlookup⟩ := hd
  have hissued := hs.numbered.issued _ n (mem_numbers_of_find hfound)
  refine ⟨(step.extends hs.valid).issued hissued, fun y hy => ?_⟩
  cases step with
  | pass x m c z c' found hop =>
    rcases mem_numbers_push.mp hy with hy | ⟨rfl, -⟩
    · exact absurd hy (hs.numbered.once.not_mem_erase (mem_numbers_of_find found) y)
    · exact hop.rank_lt
  | drop x m c found drops =>
    exact absurd hy (hs.numbered.once.not_mem_erase (mem_numbers_of_find found) y)

theorem Delivers.not_past {x : Transition World WorldEvent} {h : Identifier} {k : ℕ}
    (hd : Delivers h k n x) : ¬ x.source.Past n 13 := by
  obtain ⟨-, tuple, hfound, -⟩ := hd
  intro hpast
  exact absurd (hpast.2 _ (mem_numbers_of_find hfound)) (lt_irrefl 13)

def Received (s : World) (h : Identifier) (k : ℕ) (n : Number) : Prop :=
  n ∈ numbers s.queue (.channel h k) ∨ n ∈ numbers s.queue (.stream h k)

theorem Received.exists_item {h : Identifier} {k : ℕ} (hn : s.Received h k n) :
    ∃ frame, ⟨n, frame⟩ ∈ s.queue (.channel h k) ∨ ⟨n, frame⟩ ∈ s.queue (.stream h k) := by
  rcases hn with hn | hn
  · obtain ⟨⟨n, frame⟩, hitem, rfl⟩ := List.mem_map.mp hn
    exact ⟨frame, .inl hitem⟩
  · obtain ⟨⟨n, frame⟩, hitem, rfl⟩ := List.mem_map.mp hn
    exact ⟨frame, .inr hitem⟩

theorem Received.of_rank {y : Place} (hrank : ¬ y.rank ≤ 14) (hn : n ∈ numbers s.queue y) :
    ∃ h k, s.Received h k n := by
  cases y with
  | channel h k => exact ⟨h, k, .inl hn⟩
  | stream h k => exact ⟨h, k, .inr hn⟩
  | _ => simp [Place.rank] at hrank

/-- The loop found the client whose item this is. -/
def Found (trace : List (Transition World WorldEvent)) : (x : Place) → Number → x.Content → Prop
  | .handing h, n, found => ∃ x ∈ trace, Delivers h found.1 n x
  | .channel h k, n, _ | .stream h k, n, _ => ∃ x ∈ trace, Delivers h k n x
  | _, _, _ => True

theorem Found.append {trace : List (Transition World WorldEvent)} {x : Place} {c : x.Content}
    (h : Found trace x n c) (last : List (Transition World WorldEvent)) :
    Found (trace ++ last) x n c := by
  cases x with
  | handing | channel | stream =>
    obtain ⟨x, hx, hd⟩ := h
    exact ⟨x, List.mem_append_left _ hx, hd⟩
  | _ => trivial

/-- What clients get is handed to them by the loop. -/
theorem found_of_path {trace : List (Transition World WorldEvent)} (hs : s.Sound w)
    (path : Path (worldMachine w pack) s trace t) (old : All s.queue (Found [])) :
    All t.queue (Found trace) := by
  induction path with
  | nil => exact old
  | @snoc t u trace e prior next ih =>
    have ht := (prior.preserves (fun _ _ _ hs step => hs.next step) hs).1
    have hprior : All t.queue (Found (trace ++ [⟨t, e, u⟩])) :=
      fun x item hi => (ih x item hi).append _
    apply (ht.step_of_next next).all hprior
    · intro x y n c c' hlabel found hop
      cases hop with
      | networkToUnix h k tuple registered =>
        exact ⟨⟨t, e, u⟩, by simp, hlabel, tuple, found, registered⟩
      | handing h k frame =>
        have hfound := hprior.of_find found
        exact hfound
      | channel h k frame =>
        have hfound := hprior.of_find found
        exact hfound
      | _ => trivial
    · exact fun _ _ _ _ => trivial
    · exact fun _ _ _ => trivial
    · exact fun _ _ _ => trivial
    · exact fun _ _ _ _ => trivial

end Deliveries

section Ways

variable {A B : Identifier} {k i : ℕ} {sent : Delivery}

theorem Sound.form (hs : s.Sound w) (hext : Extends s u) (hu : u.Sends A k i sent) {x : Place}
    {c : x.Content} (found : s.content x (.client A k i) = some c) :
    s.Routed w A sent x c ∨
      (⟨x, c⟩ : (x : Place) × x.Content) =
        ⟨.inbox A k, .data sent.hostId sent.dstPort sent.data⟩ := by
  rcases hs.traced.of_find found A k i rfl with hunread | ⟨sent', hsent, hrouted⟩
  · refine .inr ?_
    cases x with
    | inbox h' k' =>
      obtain ⟨rfl, rfl, hw⟩ := hunread
      obtain rfl := Option.some.inj ((hext.written _ _ _ _ hw).symm.trans hu.1)
      rfl
    | _ => exact hunread.elim
  · have hlater : u.Sends A k i sent' :=
      ⟨hext.written _ _ _ _ hsent.1, hext.bound hsent.2⟩
    obtain rfl := hlater.unique hu
    exact .inl hrouted

/-- The ways to lose the tuple: any queue may lose it, the record may be too long, or nobody is
registered for its port. -/
def Loses (w : Wiring) (B : Identifier) (sent : Delivery) (n : Number)
    (x : Transition World WorldEvent) : Prop :=
  (∃ y, x.label = .lose y n) ∨
  (∃ e, x.label = .advance (.writing e) n ∧
    w.maxRecord < (Codec.encoding (.data sent.srcPort sent.dstPort sent.data)).length) ∨
  (x.label = .advance (.networkToUnix B) n ∧
    (x.source.unix B).connections.lookup sent.dstPort = none)

theorem Sound.drops (hs : s.Sound w) (right : w.RightIdentities A sent.hostId)
    (hext : Extends s u) (hu : u.Sends A k i sent) {x : Place} {c : x.Content}
    (found : s.content x (.client A k i) = some c) (drops : s.Drops w x c) :
    Loses w sent.hostId sent (.client A k i) ⟨s, .advance x (.client A k i), t⟩ := by
  rcases hs.form hext hu found with hrouted | hinbox
  · cases drops with
    | writing e frame long =>
      obtain ⟨-, -, rfl⟩ := hrouted
      exact .inr (.inl ⟨e, rfl, long⟩)
    | decoded e =>
      obtain ⟨-, hframe⟩ := hrouted
      cases hframe
    | networkToUnix h tuple unregistered =>
      obtain ⟨e, hl, rfl, rfl⟩ := hrouted
      rw [(hl.right right).1] at unregistered ⊢
      exact .inr (.inr ⟨rfl, unregistered⟩)
  · cases hinbox
    cases drops

theorem not_bound_of_firstFrame {hostId : Identifier} {dstPort : UInt16} {data : Bytes}
    (hext : Extends ((s.take (.inbox A k) n).setUnix A
      ((s.unix A).handleNewStream k (.data hostId dstPort data))) u) :
    (u.unix A).bound k = none := by
  have hclosed : (((s.take (.inbox A k) n).setUnix A ((s.unix A).handleNewStream k
      (.data hostId dstPort data))).unix A).clients k = .closed := by
    simp [setUnix, UnixState.handleNewStream, UnixState.setClient]
  have hkeeps := hext.unix A k (by simp [hclosed])
  rw [hkeeps.2, UnixState.bound, hclosed]
  rfl

/-- Data stays on its way unless it is lost. -/
theorem Step.keeps (hs : s.Sound w) (step : Step w pack s e t)
    (right : w.RightIdentities A sent.hostId) (data : ¬ sent.isControl) (hext : Extends t u)
    (hu : u.Sends A k i sent) {x : Place} (hn : Number.client A k i ∈ numbers s.queue x) :
    (∃ y, Number.client A k i ∈ numbers t.queue y) ∨
      Loses w sent.hostId sent (.client A k i) ⟨s, e, t⟩ := by
  have hsu : Extends s u := (step.extends hs.valid).trans hext
  have hkeeps : ∀ {y : Place} {m : Number} {P : Prop}, (m = .client A k i → P) →
      (∃ y', Number.client A k i ∈ numbers (erase s.queue y m) y') ∨ P := by
    intro y m P hlast
    by_cases hm : m = .client A k i
    · exact .inr (hlast hm)
    · exact .inl ⟨x, mem_numbers_erase_of_ne hn (Ne.symm hm) y⟩
  have hgoes : ∀ {y z : Place} {m : Number} (c : z.Content),
      ∃ y', Number.client A k i ∈ numbers (push (erase s.queue y m) z m c) y' := by
    intro y z m c
    rcases hkeeps (y := y) fun hm : m = .client A k i => hm.symm with ⟨y', hy⟩ | hm
    · exact ⟨y', mem_numbers_push.mpr (.inl hy)⟩
    · exact ⟨z, mem_numbers_push.mpr (.inr ⟨rfl, hm⟩)⟩
  have hpush : ∀ {q : Queues Number Place.Content} {z : Place} {m : Number} {c : z.Content}
      {P : Prop}, (∃ y, Number.client A k i ∈ numbers q y) ∨ P →
      (∃ y, Number.client A k i ∈ numbers (push q z m c) y) ∨ P :=
    fun h => h.imp_left fun ⟨y, hy⟩ => ⟨y, mem_numbers_push.mpr (.inl hy)⟩
  cases step with
  | connect | accept | endOfStream => exact .inl ⟨x, hn⟩
  | write | ping | control => exact hpush (.inl ⟨x, hn⟩)
  | pass | send | arrive | answer => exact .inl (hgoes _)
  | firstFrame h k' m frame handling found =>
    refine hkeeps ?_
    rintro rfl
    rcases hs.form hsu hu found with hrouted | hinbox
    · exact hrouted.elim
    · cases hinbox
      have hnot := not_bound_of_firstFrame hext
      simp [hu.2] at hnot
  | drop y m c found drops =>
    refine hkeeps ?_
    rintro rfl
    exact hs.drops right hsu hu found drops
  | stop h k' m srcPort frame found reads unhandled =>
    refine hkeeps ?_
    rintro rfl
    rcases hs.form hsu hu found with hrouted | hinbox
    · exact hrouted.elim
    · cases hinbox
      exact absurd rfl (unhandled _ _ _)
  | pong e m found =>
    refine hpush (hkeeps ?_)
    rintro rfl
    rcases hs.form hsu hu found with ⟨-, hframe⟩ | hinbox
    · cases hframe
    · cases hinbox
  | process h j m tuple network found control =>
    refine hkeeps ?_
    rintro rfl
    rcases hs.form hsu hu found with ⟨e, -, -, rfl⟩ | hinbox
    · exact absurd control data
    · cases hinbox
  | reply j e m reply data' found =>
    refine hpush (hkeeps ?_)
    rintro rfl
    rcases hs.form hsu hu found with ⟨_, -, -, hcontrol⟩ | hinbox
    · exact absurd hcontrol data
    · cases hinbox
  | lose y m =>
    refine hkeeps ?_
    rintro rfl
    exact .inl ⟨y, rfl⟩

theorem Step.issues (step : Step w pack s e t) (hs : ¬ s.Issued (.client A k i))
    (ht : t.Issued (.client A k i)) : ∃ y, Number.client A k i ∈ numbers t.queue y := by
  cases step with
  | write h k' frame =>
    have hnew : h = A ∧ k' = k ∧ i = (s.written A k).length := by
      by_cases hh : A = h
      · subst hh
        by_cases hk : k = k'
        · subst hk
          simp only [Issued, Function.update_self, List.length_append, List.length_singleton]
            at hs ht
          exact ⟨rfl, rfl, by omega⟩
        · simp [Issued, hk] at hs ht
          omega
      · simp [Issued, hh] at hs ht
        omega
    obtain ⟨rfl, rfl, rfl⟩ := hnew
    exact ⟨.inbox h k', mem_numbers_push.mpr (.inr ⟨rfl, rfl⟩)⟩
  | _ => exact absurd ht hs

theorem Step.control_of_process {h : Identifier} {j : ℕ}
    (step : Step w pack s (.process h j n) t) :
    ∃ tuple, s.content (.delivering h j) n = some tuple ∧ tuple.isControl := by
  cases step with
  | process _ _ _ tuple network found control => exact ⟨tuple, found, control⟩
  | answer _ _ _ tuple network reply found control => exact ⟨tuple, found, control⟩

theorem Step.not_process (hs : s.Sound w) (step : Step w pack s e t)
    (data : ¬ sent.isControl) (hext : Extends s u) (hu : u.Sends A k i sent) (h : Identifier)
    (j : ℕ) : e ≠ .process h j (.client A k i) := by
  rintro rfl
  obtain ⟨tuple, found, control⟩ := step.control_of_process
  rcases hs.form hext hu found with ⟨e, -, -, rfl⟩ | hinbox
  · exact data control
  · cases hinbox

/-- What a client receives is addressed to it. -/
theorem Sound.received (hs : s.Sound w) (right : w.RightIdentities A sent.hostId)
    (sends : s.Sends A k i sent) {h : Identifier} {k' : ℕ} {frame : Unix.Frame}
    (hitem : ⟨.client A k i, frame⟩ ∈ s.queue (.channel h k') ∨
      ⟨.client A k i, frame⟩ ∈ s.queue (.stream h k')) :
    h = sent.hostId ∧ frame = .data A sent.srcPort sent.data ∧
      (s.unix h).bound k' = some sent.dstPort := by
  have htraced : s.Traced w (.channel h k') (.client A k i) frame :=
    hitem.elim (hs.traced _ _) (hs.traced _ _)
  rcases htraced A k i rfl with hunread | ⟨sent', hsent, e, hl, rfl, rfl, hbound⟩
  · exact hunread.elim
  · obtain rfl := hsent.unique sends
    obtain ⟨hhost, hremote⟩ := hl.right right
    exact ⟨hhost, by rw [hremote], hbound⟩

theorem Sound.receiver (hs : s.Sound w) (right : w.RightIdentities A sent.hostId)
    (sends : s.Sends A k i sent) {h : Identifier} {k' : ℕ}
    (hn : s.Received h k' (.client A k i)) : h = sent.hostId := by
  obtain ⟨frame, hitem⟩ := hn.exists_item
  exact (hs.received right sends hitem).1

end Ways

end World

end Uip
