import Uip.UnixAccept

/-!
# A client that says nothing

Whether a client whose first frame has arrived can be registered depends on the clients before it:
each must have sent something or gone away. Two runs that differ in one client are compared.
-/
namespace Uip
open TransitionSystem Transport

namespace LocalClient

variable {c : LocalClient}

def after (c : LocalClient) : UnixEvent → LocalClient
  | .connect _ => { c with connected := true }
  | .write _ item => { c with written := c.written ++ [item] }
  | .close _ => { c with closed := true }
  | _ => c

/-- The client has connected, has sent nothing and has not gone away. -/
def Silent (c : LocalClient) : Prop := c.connected = true ∧ c.written = [] ∧ c.closed = false

instance (c : LocalClient) : Decidable c.Silent := inferInstanceAs (Decidable (_ ∧ _))

/-- The first frame of the client binds the port. -/
def Asks (c : LocalClient) (srcPort : UInt16) : Prop :=
  c.written.head? = some (.frame (.bind srcPort))

instance (c : LocalClient) (srcPort : UInt16) : Decidable (c.Asks srcPort) :=
  inferInstanceAs (Decidable (_ = _))

end LocalClient

namespace UnixServer

variable {s t : UnixServer} {e : UnixEvent} {k y : ℕ}

theorem next_client_eq (s : UnixServer) (e : UnixEvent) (k : ℕ) : ((s.next e).streams k).client =
    if e.client = some k then (s.streams k).client.after e else (s.streams k).client := by
  split_ifs with hk
  · cases e with
    | connect j | write j | close j =>
      obtain rfl := Option.some.inj hk
      simp [next, modify, LocalClient.after]
    | _ => simp [UnixEvent.client] at hk
  · exact next_client s e k hk

theorem next_waiting (h : s.unix.Valid) (he : s.enabled e) :
    (s.next e).unix.waiting = match e with
      | .connect k => s.unix.waiting ++ [k]
      | .first .. => s.unix.waiting.tail
      | _ => s.unix.waiting := by
  rw [next_unix]
  cases e with
  | connect k => simp [UnixState.waiting]
  | accept k =>
    obtain ⟨rest, hrest⟩ := List.head?_eq_some_iff.mp he.2
    simp [UnixState.waiting, he.1, hrest]
  | first k item =>
    change (s.unix.first k item).waiting = s.unix.waiting.tail
    by_cases hb : ∃ p, item = binds p
    · obtain ⟨p, rfl⟩ := hb
      simp [UnixState.waiting, he.1, UnixState.first, binds, UnixState.handleNewStream,
        UnixState.setClient]
    · push Not at hb
      rw [UnixState.first_of_not_binds h he.1 hb]
      simp [UnixState.waiting, he.1, UnixState.setClient]
  | read k item =>
    obtain ⟨p, hp⟩ := reads_iff.mp he.1
    change (s.unix.read k item).waiting = s.unix.waiting
    rcases read_cases s.unix k item with ⟨_, _, _, _, hr⟩ | ⟨_, hr⟩
    · rw [hr]
    · rw [hr, UnixState.endOfStream, hp]
      rfl
  | _ => rfl

/-- What becomes of a client is decided with its first frame. -/
theorem next_decided (h : s.unix.Valid) (he : s.enabled e) :
    (s.next e).unix.clients k = .connected ↔
      s.unix.clients k = .connected ∧ ∀ item, e ≠ .first k item := by
  rw [next_unix]
  cases e with
  | first j item =>
    have hclients : ∃ client ≠ Client.connected, (s.unix.first j item).clients =
        Function.update s.unix.clients j client := by
      by_cases hb : ∃ p, item = binds p
      · obtain ⟨p, rfl⟩ := hb
        exact ⟨.bound p true, by simp, rfl⟩
      · push Not at hb
        rw [UnixState.first_of_not_binds h he.1 hb]
        exact ⟨.closed, by simp, rfl⟩
    obtain ⟨client, hne, hc⟩ := hclients
    change (s.unix.first j item).clients k = _ ↔ _
    rw [hc]
    by_cases hk : k = j
    · subst hk
      simpa using hne
    · simp [hk, Ne.symm hk]
  | read j item =>
    obtain ⟨p, hp⟩ := reads_iff.mp he.1
    change (s.unix.read j item).clients k = _ ↔ _
    rcases read_cases s.unix j item with ⟨_, _, _, _, hr⟩ | ⟨_, hr⟩
    · simp [hr]
    · rw [hr, UnixState.endOfStream, hp]
      by_cases hk : k = j
      · subst hk
        simp [UnixState.setClient, hp]
      · simp [UnixState.setClient, hk]
  | _ => simp

/-- The invariant of the accept loop: the clients wait in the order in which they have connected,
behind all that it has let go of, and nothing is read from them. -/
structure Orderly (s : UnixServer) : Prop where
  unix : s.unix.Valid
  sorted : s.unix.waiting.Pairwise (· < ·)
  known : ∀ k, (s.streams k).client.connected = true →
    k ∈ s.unix.waiting ∨ s.unix.clients k ≠ .connected
  connected : ∀ k ∈ s.unix.waiting, (s.streams k).client.connected = true
  decided : ∀ k, s.unix.clients k ≠ .connected → ∀ j ∈ s.unix.waiting, k < j
  spoken : ∀ k, s.unix.clients k ≠ .connected →
    (s.streams k).client.written ≠ [] ∨ (s.streams k).client.closed = true
  asked : ∀ k p, s.unix.clients k ≠ .connected → (s.streams k).client.Asks p →
    s.unix.bound k = some p
  input : ∀ k, s.unix.clients k = .connected →
    (s.streams k).input = (s.streams k).client.written
  heard : ∀ k, (s.streams k).client.written ≠ [] → (s.streams k).client.connected = true

theorem Orderly.new : UnixServer.new.Orderly where
  unix := .new
  sorted := .nil
  known k h := by simp [UnixServer.new] at h
  connected k h := by simp [UnixServer.new, UnixState.new, UnixState.waiting] at h
  decided k h := absurd rfl h
  spoken k h := absurd rfl h
  asked k p h := absurd rfl h
  input _ _ := rfl
  heard k h := absurd rfl h

theorem connected_next (e : UnixEvent) (hk : (s.streams k).client.connected = true) :
    ((s.next e).streams k).client.connected = true := by
  rw [next_client_eq]
  split_ifs
  · cases e <;> simp [LocalClient.after, hk]
  · exact hk

section Step
variable (h : s.Orderly) (he : s.enabled e)
include h he

theorem Orderly.waiting_first {item : Option ReadItem} (hf : e = .first k item) :
    s.unix.waiting = k :: (s.next e).unix.waiting := by
  subst hf
  rw [next_waiting h.unix he]
  simp [UnixState.waiting, he.1]

theorem Orderly.sorted_next : (s.next e).unix.waiting.Pairwise (· < ·) := by
  rw [next_waiting h.unix he]
  cases e with
  | connect n =>
    refine List.pairwise_append.mpr ⟨h.sorted, List.pairwise_singleton _ _, fun j hj i hi => ?_⟩
    obtain rfl := List.mem_singleton.mp hi
    exact Nat.lt_of_lt_of_le (h.unix.waiting j hj).2 he
  | first => exact h.sorted.tail
  | _ => exact h.sorted

theorem Orderly.known_next (hk : ((s.next e).streams k).client.connected = true) :
    k ∈ (s.next e).unix.waiting ∨ (s.next e).unix.clients k ≠ .connected := by
  by_cases hbefore : (s.streams k).client.connected = true
  · by_cases hf : ∃ item, e = .first k item
    · obtain ⟨item, hf⟩ := hf
      exact .inr fun hc => ((next_decided h.unix he).mp hc).2 item hf
    · push Not at hf
      refine (h.known k hbefore).imp (fun hw => ?_) fun hd hc => ?_
      · rw [next_waiting h.unix he]
        cases e with
        | connect n => exact List.mem_append_left _ hw
        | first j item =>
          have hj := h.waiting_first he (k := j) rfl
          rw [hj] at hw
          rw [next_waiting h.unix he] at hw
          refine (List.mem_cons.mp hw).resolve_left ?_
          rintro rfl
          exact hf item rfl
        | _ => exact hw
      · exact hd ((next_decided h.unix he).mp hc).1
  · rw [next_client_eq] at hk
    split_ifs at hk with hclient
    · cases e with
      | connect n =>
        obtain rfl := Option.some.inj hclient
        rw [next_waiting h.unix he]
        exact .inl (by simp)
      | write n | close n =>
        obtain rfl := Option.some.inj hclient
        exact absurd he.1 hbefore
      | _ => simp [UnixEvent.client] at hclient
    · exact absurd hk hbefore

theorem Orderly.decided_next (hk : (s.next e).unix.clients k ≠ .connected)
    (hy : y ∈ (s.next e).unix.waiting) : k < y := by
  by_cases hf : ∃ item, e = .first k item
  · obtain ⟨item, hf⟩ := hf
    have hsorted := h.sorted
    rw [h.waiting_first he hf] at hsorted
    exact (List.pairwise_cons.mp hsorted).1 y hy
  · push Not at hf
    have hbefore : s.unix.clients k ≠ .connected := fun hc =>
      hk ((next_decided h.unix he).mpr ⟨hc, hf⟩)
    rw [next_waiting h.unix he] at hy
    cases e with
    | connect n =>
      rcases List.mem_append.mp hy with hy | hy
      · exact h.decided k hbefore y hy
      · obtain rfl := List.mem_singleton.mp hy
        by_contra hle
        exact hbefore (h.unix.absent k (Nat.le_trans he (Nat.le_of_not_lt hle)))
    | first => exact h.decided k hbefore y (List.mem_of_mem_tail hy)
    | _ => exact h.decided k hbefore y hy

theorem Orderly.first_item {item : Option ReadItem} (hf : e = .first k item) :
    item = (s.streams k).client.written.head? ∧
      ((s.streams k).client.written ≠ [] ∨ (s.streams k).client.closed = true) := by
  subst hf
  have hinput := h.input k (h.unix.waiting k (by simp [UnixState.waiting, he.1])).1
  have hpoll := he.2
  rw [UnixStream.poll, hinput] at hpoll
  cases hw : (s.streams k).client.written with
  | nil =>
    rw [hw] at hpoll
    simp only [Option.ite_none_right_eq_some, Option.some.injEq] at hpoll
    exact ⟨hpoll.2.symm, .inr hpoll.1⟩
  | cons first rest =>
    rw [hw] at hpoll
    exact ⟨(Option.some.inj hpoll).symm, .inl (by simp)⟩

theorem Orderly.spoken_next (hk : (s.next e).unix.clients k ≠ .connected) :
    ((s.next e).streams k).client.written ≠ [] ∨
      ((s.next e).streams k).client.closed = true := by
  have hbefore : (s.streams k).client.written ≠ [] ∨ (s.streams k).client.closed = true := by
    by_cases hf : ∃ item, e = .first k item
    · obtain ⟨item, hf⟩ := hf
      exact (h.first_item he hf).2
    · push Not at hf
      exact h.spoken k fun hc => hk ((next_decided h.unix he).mpr ⟨hc, hf⟩)
  refine hbefore.imp (fun hw => ?_) closed_next
  rw [next_client_eq]
  split_ifs
  · cases e <;> simp [LocalClient.after, hw]
  · exact hw

theorem Orderly.asked_next {p : UInt16} (hk : (s.next e).unix.clients k ≠ .connected)
    (hp : ((s.next e).streams k).client.Asks p) : (s.next e).unix.bound k = some p := by
  refine (next_bound h.unix he).mpr ?_
  by_cases hf : ∃ item, e = .first k item
  · obtain ⟨item, rfl⟩ := hf
    rw [next_client _ _ _ (by simp [UnixEvent.client]), LocalClient.Asks] at hp
    rw [(h.first_item he rfl).1, hp]
    exact .inl rfl
  · push Not at hf
    have hbefore : s.unix.clients k ≠ .connected := fun hc =>
      hk ((next_decided h.unix he).mpr ⟨hc, hf⟩)
    refine .inr (h.asked k p hbefore ?_)
    rw [next_client_eq] at hp
    split_ifs at hp with hclient
    · cases e with
      | write j item =>
        obtain rfl := Option.some.inj hclient
        have hopen : (s.streams j).client.closed = false := he.2
        have hwritten := (h.spoken j hbefore).resolve_right (by simp [hopen])
        rwa [LocalClient.Asks, LocalClient.after, List.head?_append_of_ne_nil _ hwritten] at hp
      | _ => exact hp
    · exact hp

theorem Orderly.input_next (hk : (s.next e).unix.clients k = .connected) :
    ((s.next e).streams k).input = ((s.next e).streams k).client.written := by
  obtain ⟨hbefore, hf⟩ := (next_decided h.unix he).mp hk
  have hold := h.input k hbefore
  rw [next_input hbefore he hf, next_client_eq]
  cases e with
  | write j item =>
    by_cases hj : k = j
    · subst hj
      simp [UnixEvent.client, LocalClient.after, hold]
    · simp [UnixEvent.client, hj, Ne.symm hj, hold]
  | connect j | close j => split_ifs <;> exact hold
  | _ => simpa [UnixEvent.client] using hold

theorem Orderly.waiting_next (hk : k ∈ (s.next e).unix.waiting) :
    ((s.next e).streams k).client.connected = true := by
  rw [next_waiting h.unix he] at hk
  cases e with
  | connect n =>
    rcases List.mem_append.mp hk with hk | hk
    · exact connected_next _ (h.connected k hk)
    · obtain rfl := List.mem_singleton.mp hk
      simp [UnixServer.next, modify]
  | first => exact connected_next _ (h.connected k (List.mem_of_mem_tail hk))
  | _ => exact connected_next _ (h.connected k hk)

theorem Orderly.heard_next (hk : ((s.next e).streams k).client.written ≠ []) :
    ((s.next e).streams k).client.connected = true := by
  rw [next_client_eq] at hk
  split_ifs at hk with hclient
  · cases e with
    | write j item =>
      obtain rfl := Option.some.inj hclient
      exact connected_next _ he.1
    | _ => exact connected_next _ (h.heard k hk)
  · exact connected_next _ (h.heard k hk)

theorem Orderly.next : (s.next e).Orderly where
  unix := unix_next h.unix he
  sorted := h.sorted_next he
  known _ hk := h.known_next he hk
  connected _ hk := h.waiting_next he hk
  decided _ hk _ hj := h.decided_next he hk hj
  spoken _ hk := h.spoken_next he hk
  asked _ _ hk hp := h.asked_next he hk hp
  input _ hk := h.input_next he hk
  heard _ hk := h.heard_next he hk

end Step

theorem Orderly.of_reachable (h : Reachable unixMachine s) : s.Orderly :=
  h.guarded_induct (by rintro s rfl; exact .new) fun _ _ hs he => hs.next he

/-- The daemon can register the client, whatever it has to do before. -/
def Registrable (s : UnixServer) (k : ℕ) : Prop :=
  ∃ trace t, Path unixMachine s trace t ∧ (∀ x ∈ trace, x.label.client = none) ∧
    (t.unix.bound k).isSome = true

theorem client_of_path {trace : List (Transition UnixServer UnixEvent)}
    (path : Path unixMachine s trace t) (daemon : ∀ x ∈ trace, x.label.client = none) (k : ℕ) :
    (t.streams k).client = (s.streams k).client := by
  refine path.carries (P := fun t => (t.streams k).client = (s.streams k).client) rfl ?_
  intro x hx hs
  obtain ⟨_, hnext⟩ := guarded_step.mp (path.step_of_mem hx)
  rw [← hnext, next_client _ _ _ (by simp [daemon x hx]), hs]

/-- Each client before one that has been registered has sent something or gone away. -/
theorem Orderly.not_silent (h : s.Orderly) (hk : Registrable s k) (hy : y < k) :
    ¬ (s.streams y).client.Silent := by
  obtain ⟨trace, t, path, daemon, hbound⟩ := hk
  have ht : t.Orderly := by
    refine (path.preserves (P := Orderly) (fun s e t hs hst => ?_) h).1
    obtain ⟨he, rfl⟩ := guarded_step.mp hst
    exact hs.next he
  have hdecided : t.unix.clients k ≠ .connected := fun hc => by
    simp [UnixState.bound_of_connected hc] at hbound
  rintro ⟨hconnected, hwritten, hclosed⟩
  rw [← client_of_path path daemon y] at hconnected hwritten hclosed
  rcases ht.known y hconnected with hw | hd
  · exact absurd (ht.decided k hdecided y hw) (Nat.lt_asymm hy)
  · exact (ht.spoken y hd).elim (absurd hwritten) (by simp [hclosed])

/-- What is left of the work of the accept loop. -/
def pending (s : UnixServer) : ℕ :=
  2 * s.unix.waiting.length + if s.unix.handling = none then 1 else 0

theorem Orderly.serve (h : s.Orderly) {rest : List ℕ} (hw : s.unix.waiting = y :: rest)
    (hspoken : ¬ (s.streams y).client.Silent) :
    ∃ e, s.enabled e ∧ e.client = none ∧ (s.next e).pending < s.pending := by
  have hy : y ∈ s.unix.waiting := by simp [hw]
  have hclient := (h.unix.waiting y hy).1
  cases hh : s.unix.handling with
  | none =>
    have hbacklog : s.unix.backlog.head? = some y := by
      have hsame : s.unix.waiting = s.unix.backlog := by simp [UnixState.waiting, hh]
      simp [← hsame, hw]
    have he : s.enabled (.accept y) := ⟨hh, hbacklog⟩
    refine ⟨_, he, rfl, ?_⟩
    have hhandling : (s.next (.accept y)).unix.handling = some y := rfl
    simp [pending, next_waiting h.unix he, hh, hhandling]
  | some z =>
    obtain rfl : z = y := by
      have hcons : s.unix.waiting = z :: s.unix.backlog := by simp [UnixState.waiting, hh]
      rw [hcons] at hw
      exact (List.cons.inj hw).1
    have hpoll : (s.streams z).poll ≠ none := by
      intro hp
      obtain ⟨hinput, hopen⟩ := poll_eq_none.mp hp
      rw [h.input z hclient] at hinput
      exact hspoken ⟨h.connected z hy, hinput, hopen⟩
    obtain ⟨item, hitem⟩ := Option.ne_none_iff_exists'.mp hpoll
    have he : s.enabled (.first z item) := ⟨hh, hitem⟩
    refine ⟨_, he, rfl, ?_⟩
    simp only [pending, next_waiting h.unix he, hw, hh, List.tail_cons, List.length_cons,
      reduceCtorEq, if_false]
    split <;> omega

/-- The accept loop gets to a client when all clients before it have sent something or gone
away. -/
theorem Orderly.registrable (h : s.Orderly) {p : UInt16} (hasks : (s.streams k).client.Asks p)
    (hspoken : ∀ y < k, ¬ (s.streams y).client.Silent) : Registrable s k := by
  induction hn : s.pending using Nat.strong_induction_on generalizing s with
  | _ n ih =>
    by_cases hk : s.unix.clients k = .connected
    · have hwritten : (s.streams k).client.written ≠ [] := by
        intro hnil
        simp [LocalClient.Asks, hnil] at hasks
      have hmem := (h.known k (h.heard k hwritten)).resolve_right (absurd hk)
      obtain ⟨y, rest, hw⟩ := List.exists_cons_of_ne_nil (List.ne_nil_of_mem hmem)
      have hy : ¬ (s.streams y).client.Silent := by
        have hsorted := h.sorted
        rw [hw] at hsorted hmem
        rcases List.mem_cons.mp hmem with rfl | hrest
        · exact fun hsilent => hwritten hsilent.2.1
        · exact hspoken y ((List.pairwise_cons.mp hsorted).1 k hrest)
      obtain ⟨e, he, hdaemon, hless⟩ := h.serve hw hy
      have hsame : ∀ i, ((s.next e).streams i).client = (s.streams i).client := fun i =>
        next_client s e i (by simp [hdaemon])
      obtain ⟨trace, t, path, daemon, hbound⟩ := ih _ (hn ▸ hless) (h.next he)
        (by rwa [hsame]) (fun i hi => by rw [hsame]; exact hspoken i hi) rfl
      refine ⟨_, t, .cons (guarded_step.mpr ⟨he, rfl⟩) path, fun x hx => ?_, hbound⟩
      rcases List.mem_cons.mp hx with rfl | hx
      · exact hdaemon
      · exact daemon x hx
    · exact ⟨[], s, .nil s, by simp, by simp [h.asked k p hk hasks]⟩

end UnixServer

def clientEvents (r : Run unixMachine) : List UnixEvent :=
  (r.transitions.map Transition.label).filter fun e => e.client.isSome

/-- The second run is the first without the client `x`. -/
def Without (x : ℕ) (r r' : Run unixMachine) : Prop :=
  clientEvents r' = (clientEvents r).filter fun e => decide (e.client ≠ some x)

def clientMachine : Machine LocalClient UnixEvent :=
  ⟨(· = ⟨false, false, []⟩), fun c e => c.after e⟩

theorem exec_client (r : Run unixMachine) (k : ℕ) :
    exec clientMachine ⟨false, false, []⟩
      ((clientEvents r).filter fun e => decide (e.client = some k)) =
        some (r.final.streams k).client := by
  have hstart : r.start = UnixServer.new := r.starts
  have hevents : (clientEvents r).filter (fun e => decide (e.client = some k)) =
      (r.transitions.map Transition.label).filter fun e => decide (e.client = some k) := by
    rw [clientEvents, List.filter_filter]
    apply List.filter_congr
    intro e _
    by_cases he : e.client = some k <;> simp [he]
  rw [hevents]
  refine (congrArg (fun s => exec clientMachine (s.streams k).client _) hstart).symm.trans
    (r.path.exec_projection (f := fun s => (s.streams k).client) ?_ ?_)
  · intro x hx hs
    obtain ⟨_, hnext⟩ := guarded_step.mp (r.path.step_of_mem hx)
    rw [← hnext, UnixServer.next_client_eq, if_pos (of_decide_eq_true hs)]
    rfl
  · intro x hx hs
    obtain ⟨_, hnext⟩ := guarded_step.mp (r.path.step_of_mem hx)
    rw [← hnext, UnixServer.next_client_eq, if_neg (of_decide_eq_false hs)]

namespace Without

variable {x k : ℕ} {r r' : Run unixMachine}

theorem same_client (h : Without x r r') (hk : k ≠ x) :
    (r'.final.streams k).client = (r.final.streams k).client := by
  have hevents : (clientEvents r').filter (fun e => decide (e.client = some k)) =
      (clientEvents r).filter fun e => decide (e.client = some k) := by
    rw [h, List.filter_filter]
    apply List.filter_congr
    intro e _
    by_cases he : e.client = some k <;> simp [he, hk]
  have hexec := exec_client r' k
  rw [hevents, exec_client r k] at hexec
  exact (Option.some.inj hexec).symm

theorem absent_client (h : Without x r r') : ¬ (r'.final.streams x).client.Silent := by
  have hnone : (clientEvents r').filter (fun e => decide (e.client = some x)) = [] := by
    rw [h, List.filter_filter]
    apply List.filter_eq_nil_iff.mpr
    intro e _
    by_cases he : e.client = some x <;> simp [he]
  have hexec := exec_client r' x
  rw [hnone, exec_nil] at hexec
  rw [← Option.some.inj hexec]
  simp [LocalClient.Silent]

theorem registrable_iff (h : Without x r r') :
    (∀ k ≠ x, ∀ p, (r.final.streams k).client.Asks p →
      (r.final.Registrable k ↔ r'.final.Registrable k)) ↔
    ((r.final.streams x).client.Silent → ∀ k > x, ∀ p, (r.final.streams k).client.Asks p →
      ∃ y < k, y ≠ x ∧ (r.final.streams y).client.Silent) := by
  have hr := UnixServer.Orderly.of_reachable r.reachable
  have hr' := UnixServer.Orderly.of_reachable r'.reachable
  constructor
  · intro hsame hx k hk p hasks
    by_contra hnone
    push Not at hnone
    have hne : k ≠ x := Nat.ne_of_gt hk
    have hother : r'.final.Registrable k := by
      refine hr'.registrable (p := p) (by rwa [h.same_client hne]) fun y hy => ?_
      by_cases hyx : y = x
      · exact hyx ▸ h.absent_client
      · rw [h.same_client hyx]
        exact hnone y hy hyx
    exact hr.not_silent ((hsame k hne p hasks).mpr hother) hk hx
  · intro hx k hne p hasks
    constructor
    · intro hk
      refine hr'.registrable (p := p) (by rwa [h.same_client hne]) fun y hy => ?_
      by_cases hyx : y = x
      · exact hyx ▸ h.absent_client
      · rw [h.same_client hyx]
        exact hr.not_silent hk hy
    · intro hk
      have hothers : ∀ y < k, y ≠ x → ¬ (r.final.streams y).client.Silent := by
        intro y hy hyx
        rw [← h.same_client hyx]
        exact hr'.not_silent hk hy
      refine hr.registrable hasks fun y hy hsilent => ?_
      by_cases hyx : y = x
      · subst hyx
        obtain ⟨z, hz, hzx, hsilent'⟩ := hx hsilent k hy p hasks
        exact hothers z hz hzx hsilent'
      · exact hothers y hy hyx hsilent

end Without

/-- An extra client keeps no other out, unless it is silent and the only one that is so among those
that connected before a client whose first frame has arrived; and no client is held up in a run
exactly where each one with others behind it is accepted with its first frame, and none connects
while the accept loop waits. -/
theorem idle_client_iff (r : Run unixMachine) :
    (∀ x r', Without x r r' →
      ((∀ k ≠ x, ∀ p, (r.final.streams k).client.Asks p →
        (r.final.Registrable k ↔ r'.final.Registrable k)) ↔
      ((r.final.streams x).client.Silent → ∀ k > x, ∀ p, (r.final.streams k).client.Asks p →
        ∃ y < k, y ≠ x ∧ (r.final.streams y).client.Silent))) ∧
    ((∀ x ∈ r.transitions, ¬ x.target.Held) ↔
      ∀ x ∈ r.transitions, x.source.Prompt x.label) :=
  ⟨fun _ _ h => h.registrable_iff, held_iff r⟩

/-- A client connects and says nothing: the next one cannot be registered, and could be without
it. -/
theorem idle_client_keeps_out : ∃ r r' : Run unixMachine, Without 0 r r' ∧
    (r.final.streams 0).client.Silent ∧ (r.final.streams 1).client.Asks 80 ∧ r.final.Held ∧
    ¬ r.final.Registrable 1 ∧ r'.final.Registrable 1 := by
  obtain ⟨r, -, hl, h⟩ := exec_final (M := unixMachine) rfl
    [.connect 0, .accept 0, .connect 1, .write 1 (.frame (.bind 80))]
    (p := fun s => decide ((s.streams 0).client.Silent ∧ (s.streams 1).client.Asks 80 ∧ s.Held))
    (by decide)
  obtain ⟨r', -, hl', h'⟩ := exec_final (M := unixMachine) rfl
    [.connect 1, .write 1 (.frame (.bind 80))]
    (p := fun s => decide ((s.streams 1).client.Asks 80)) (by decide)
  obtain ⟨hsilent, hasks, hheld⟩ := of_decide_eq_true h
  have hwithout : Without 0 r r' := by
    rw [Without, clientEvents, clientEvents, hl, hl']
    decide
  refine ⟨r, r', hwithout, hsilent, hasks, hheld, fun hk => ?_, ?_⟩
  · exact (UnixServer.Orderly.of_reachable r.reachable).not_silent hk Nat.zero_lt_one hsilent
  · refine (UnixServer.Orderly.of_reachable r'.reachable).registrable (of_decide_eq_true h')
      fun y hy => ?_
    obtain rfl : y = 0 := by omega
    exact hwithout.absent_client

end Uip
