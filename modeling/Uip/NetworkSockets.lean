import Uip.NetworkMain

/-!
# Reconciling the sockets with the addresses

`open_new_sockets` as one function, up to the publication. A socket is opened where the platform
binds its address and sets up its acceptor; `attempts` counts the calls of `open_socket`, so that
any pattern of failures can be given, and `bound` holds the addresses the process has bound.
-/
namespace Uip
open TransitionSystem Transport

variable {tls : Tls}

/-- `bind` of the operating system, which fails for an address the process has still bound, and
the set-up of an acceptor. -/
structure Platform where
  bind : List SocketAddrV6 → SocketAddrV6 → ℕ → Bool
  acceptorForId : ℕ → Bool
  exclusive : ∀ bound address n, address ∈ bound → bind bound address n = false

/-- The sockets of a daemon, each bound to its address. -/
structure NetworkSockets (tls : Tls) where
  daemon : Daemon tls
  bound : List SocketAddrV6
  attempts : ℕ
  wellFormed : daemon.WellFormed
  stored : ∀ address k, daemon.sockets.lookup address = some k → address ∈ bound

inductive SocketAction
  | closed (address : SocketAddrV6) (k : ℕ)
  | opened (address : SocketAddrV6) (k : ℕ)
  | failed (address : SocketAddrV6)
  deriving DecidableEq

namespace Daemon

variable {pack : MessagePack} {d : Daemon tls}

theorem enabled_closeSocket {address : SocketAddrV6} {k : ℕ}
    (h : d.sockets.lookup address = some k) : d.enabled pack (.closeSocket address k) :=
  ⟨h, trivial, trivial, trivial⟩

theorem enabled_openSocket {address : SocketAddrV6} (h : d.sockets.lookup address = none) :
    d.enabled pack (.openSocket address) := ⟨h, trivial⟩

end Daemon

namespace NetworkSockets

variable (pack : MessagePack) (platform : Platform)

def lookup (s : NetworkSockets tls) (address : SocketAddrV6) : Option ℕ :=
  s.daemon.sockets.lookup address

def close (s : NetworkSockets tls) (address : SocketAddrV6) (k : ℕ)
    (h : s.daemon.sockets.lookup address = some k) : NetworkSockets tls where
  daemon := s.daemon.next pack (.closeSocket address k)
  bound := s.bound
  attempts := s.attempts
  wellFormed := s.wellFormed.next (Daemon.enabled_closeSocket h)
  stored a j ha := by
    rcases Daemon.sockets_of_next ha with ⟨hold, _⟩ | ⟨heq, _⟩
    · exact s.stored a j hold
    · cases heq

def closeStaleSockets (s : NetworkSockets tls) :
    List SocketAddrV6 → NetworkSockets tls × List SocketAction
  | [] => (s, [])
  | address :: stale =>
    match h : s.daemon.sockets.lookup address with
    | some k =>
      let r := (s.close pack address k h).closeStaleSockets stale
      (r.1, .closed address k :: r.2)
    | none => s.closeStaleSockets stale

/-- `open_socket` up to the insertion; without an acceptor the address stays bound. -/
def openSocket (s : NetworkSockets tls) (address : SocketAddrV6) :
    NetworkSockets tls × SocketAction :=
  if h : platform.bind s.bound address s.attempts = true then
    have hnew : s.daemon.sockets.lookup address = none := by
      cases hl : s.daemon.sockets.lookup address with
      | none => rfl
      | some k =>
        have hfails := platform.exclusive s.bound address s.attempts (s.stored address k hl)
        rw [h] at hfails
        cases hfails
    if platform.acceptorForId s.attempts then
      ({ daemon := s.daemon.next pack (.openSocket address)
         bound := address :: s.bound
         attempts := s.attempts + 1
         wellFormed := s.wellFormed.next (Daemon.enabled_openSocket hnew)
         stored := by
          intro a j ha
          rcases Daemon.sockets_of_next ha with ⟨hold, _⟩ | ⟨heq, _⟩
          · exact List.mem_cons_of_mem _ (s.stored a j hold)
          · obtain rfl := DaemonEvent.openSocket.inj heq
            exact List.mem_cons_self },
        .opened address s.daemon.nextSocket)
    else
      ({ s with
         bound := address :: s.bound
         attempts := s.attempts + 1
         stored := fun a j ha => List.mem_cons_of_mem _ (s.stored a j ha) }, .failed address)
  else ({ s with attempts := s.attempts + 1 }, .failed address)

/-- The loop of `open_new_sockets`; a socket that cannot be opened is passed over. -/
def openSockets (s : NetworkSockets tls) :
    List SocketAddrV6 → NetworkSockets tls × List SocketAction
  | [] => (s, [])
  | address :: addresses =>
    let tried := s.openSocket pack platform address
    let r := tried.1.openSockets addresses
    (r.1, tried.2 :: r.2)

/-- The discovered addresses with the port of the daemon. -/
def withPort (s : NetworkSockets tls) (discovered : List SocketAddrV6) : List SocketAddrV6 :=
  discovered.map fun address => { address with port := s.daemon.network.port }

def openNewSockets (s : NetworkSockets tls) (discovered : List SocketAddrV6) :
    NetworkSockets tls × List SocketAction :=
  let addresses := s.withPort discovered
  let stale := s.daemon.sockets.keys.filter fun address => decide (address ∉ addresses)
  let closed := s.closeStaleSockets pack stale
  let opened := closed.1.openSockets pack platform
    (addresses.filter fun address => (closed.1.lookup address).isNone)
  (opened.1, closed.2 ++ opened.2)

section Closing
variable {pack} {s : NetworkSockets tls}

theorem close_lookup {address : SocketAddrV6} {k : ℕ}
    (h : s.daemon.sockets.lookup address = some k) (a : SocketAddrV6) :
    (s.close pack address k h).lookup a = if a = address then none else s.lookup a := by
  have hsockets := @Daemon.next_sockets tls pack s.daemon (.closeSocket address k)
  rw [lookup, close, hsockets]
  exact HashMap.lookup_erase_if _ _ _

theorem close_table {address : SocketAddrV6} {k : ℕ}
    (h : s.daemon.sockets.lookup address = some k) (j : ℕ) :
    (s.close pack address k h).daemon.table j =
      if j = k then (s.daemon.table k).next .close else s.daemon.table j := by
  show Function.update s.daemon.table k _ j = _
  by_cases hj : j = k
  · subst hj
    rw [Function.update_self, if_pos rfl]
  · rw [Function.update_of_ne hj, if_neg hj]

/-- What the loop over the stale addresses does. -/
structure Closed (s t : NetworkSockets tls) (stale : List SocketAddrV6)
    (actions : List SocketAction) : Prop where
  lookup : ∀ a, t.lookup a = if a ∈ stale then none else s.lookup a
  actions : actions = stale.filterMap fun a => (s.lookup a).map (.closed a)
  network : t.daemon.network = s.daemon.network
  nextSocket : t.daemon.nextSocket = s.daemon.nextSocket
  table : ∀ k, (∀ a ∈ stale, s.lookup a ≠ some k) → t.daemon.table k = s.daemon.table k
  closes : ∀ a ∈ stale, ∀ k, s.lookup a = some k → (t.daemon.table k).io.closeSent = true

theorem Closed.cons {t : NetworkSockets tls} {address : SocketAddrV6} {k : ℕ}
    {stale : List SocketAddrV6} {actions : List SocketAction} (hnot : address ∉ stale)
    (h : s.daemon.sockets.lookup address = some k)
    (ht : Closed (s.close pack address k h) t stale actions) :
    Closed s t (address :: stale) (.closed address k :: actions) := by
  have hother : ∀ a ∈ stale, (s.close pack address k h).lookup a = s.lookup a := by
    intro a ha
    rw [close_lookup h, if_neg]
    rintro rfl
    exact hnot ha
  have hunique : ∀ a ∈ stale, s.lookup a ≠ some k := by
    intro a ha hl
    exact hnot (s.wellFormed.unique a address k hl h ▸ ha)
  refine ⟨fun a => ?_, ?_, ht.network, ht.nextSocket, fun j hj => ?_, fun a ha j hj => ?_⟩
  · rw [ht.lookup, close_lookup h]
    by_cases ha : a = address <;> by_cases hm : a ∈ stale <;> simp [ha, hm]
  · have hfirst : s.lookup address = some k := h
    rw [ht.actions, List.filterMap_cons, hfirst, Option.map_some]
    refine congrArg (List.cons _) (List.filterMap_congr fun a ha => ?_)
    rw [hother a ha]
  · have hjk : j ≠ k := fun heq => hj address List.mem_cons_self (heq ▸ h)
    rw [ht.table j fun a ha => hother a ha ▸ hj a (List.mem_cons_of_mem _ ha), close_table h,
      if_neg hjk]
  · rcases List.mem_cons.mp ha with rfl | ha
    · obtain rfl : k = j := Option.some.inj (h.symm.trans hj)
      rw [ht.table k fun a ha => hother a ha ▸ hunique a ha, close_table h, if_pos rfl]
      rfl
    · exact ht.closes a ha j (hother a ha ▸ hj)

theorem Closed.skip {t : NetworkSockets tls} {address : SocketAddrV6}
    {stale : List SocketAddrV6} {actions : List SocketAction} (h : s.lookup address = none)
    (ht : Closed s t stale actions) : Closed s t (address :: stale) actions := by
  refine ⟨fun a => ?_, ?_, ht.network, ht.nextSocket, fun j hj => ?_, fun a ha j hj => ?_⟩
  · rw [ht.lookup]
    by_cases ha : a = address <;> by_cases hm : a ∈ stale <;> simp [ha, hm, h]
  · rw [ht.actions, List.filterMap_cons, h, Option.map_none]
  · exact ht.table j fun a ha => hj a (List.mem_cons_of_mem _ ha)
  · rcases List.mem_cons.mp ha with rfl | ha
    · rw [h] at hj
      cases hj
    · exact ht.closes a ha j hj

theorem closeStaleSockets_closed (s : NetworkSockets tls) {stale : List SocketAddrV6}
    (h : stale.Nodup) : Closed s (s.closeStaleSockets pack stale).1 stale
      (s.closeStaleSockets pack stale).2 := by
  induction stale generalizing s with
  | nil => exact ⟨by simp [closeStaleSockets], rfl, rfl, rfl, fun _ _ => rfl, by simp⟩
  | cons address stale ih =>
    obtain ⟨hnot, hnodup⟩ := List.nodup_cons.mp h
    rw [closeStaleSockets]
    split
    · rename_i k hl
      exact (ih _ hnodup).cons hnot hl
    · rename_i hl
      exact (ih s hnodup).skip hl

end Closing

section Opening
variable {pack platform} {s : NetworkSockets tls}

theorem openSocket_cases (s : NetworkSockets tls) (address : SocketAddrV6) :
    (s.lookup address = none ∧
      (s.openSocket pack platform address).1.daemon = s.daemon.next pack (.openSocket address) ∧
      (s.openSocket pack platform address).2 = .opened address s.daemon.nextSocket) ∨
    ((s.openSocket pack platform address).1.daemon = s.daemon ∧
      (s.openSocket pack platform address).2 = .failed address) := by
  unfold openSocket
  split
  · rename_i hbind
    split
    · left
      refine ⟨?_, rfl, rfl⟩
      cases hl : s.lookup address with
      | none => rfl
      | some k =>
        have hfails := platform.exclusive s.bound address s.attempts (s.stored address k hl)
        rw [hbind] at hfails
        cases hfails
    · exact .inr ⟨rfl, rfl⟩
  · exact .inr ⟨rfl, rfl⟩

theorem next_openSocket_lookup (d : Daemon tls) (address a : SocketAddrV6) :
    (d.next pack (.openSocket address)).sockets.lookup a =
      if a = address then some d.nextSocket else d.sockets.lookup a := by
  rw [d.next_sockets (.openSocket address)]
  exact HashMap.lookup_insert_if _ _ _ _

/-- What the loop over the new addresses does. -/
structure Opened (s t : NetworkSockets tls) (addresses : List SocketAddrV6)
    (actions : List SocketAction) : Prop where
  lookup : ∀ a k, t.lookup a = some k ↔ s.lookup a = some k ∨ .opened a k ∈ actions
  listed : ∀ a k, .opened a k ∈ actions → a ∈ addresses ∧ s.daemon.nextSocket ≤ k
  attempted : ∀ a ∈ addresses, (∃ k, .opened a k ∈ actions) ∨ .failed a ∈ actions
  closed : ∀ a k, .closed a k ∉ actions
  network : t.daemon.network = s.daemon.network
  table : ∀ k < s.daemon.nextSocket, t.daemon.table k = s.daemon.table k

theorem Opened.attempted_cons {t u : NetworkSockets tls} {addresses : List SocketAddrV6}
    {actions : List SocketAction} (h : Opened t u addresses actions) (action : SocketAction)
    {a : SocketAddrV6} (ha : a ∈ addresses) :
    (∃ k, .opened a k ∈ action :: actions) ∨ .failed a ∈ action :: actions :=
  (h.attempted a ha).imp (fun ⟨k, hk⟩ => ⟨k, List.mem_cons_of_mem _ hk⟩) (List.mem_cons_of_mem _)

theorem Opened.closed_cons {t u : NetworkSockets tls} {addresses : List SocketAddrV6}
    {actions : List SocketAction} (h : Opened t u addresses actions) {action : SocketAction}
    (hother : ∀ a k, .closed a k ≠ action) (a : SocketAddrV6) (k : ℕ) :
    .closed a k ∉ action :: actions := by
  intro hk
  rcases List.mem_cons.mp hk with heq | hk
  · exact hother a k heq
  · exact h.closed a k hk

theorem Opened.opened {t u : NetworkSockets tls} {address : SocketAddrV6}
    {addresses : List SocketAddrV6} {actions : List SocketAction}
    (hnone : s.lookup address = none) (ht : t.daemon = s.daemon.next pack (.openSocket address))
    (h : Opened t u addresses actions) :
    Opened s u (address :: addresses) (.opened address s.daemon.nextSocket :: actions) := by
  have hlookup : ∀ a k, t.lookup a = some k ↔
      s.lookup a = some k ∨ a = address ∧ k = s.daemon.nextSocket := by
    intro a k
    rw [NetworkSockets.lookup, ht, next_openSocket_lookup]
    by_cases ha : a = address
    · rw [if_pos ha, ha, hnone]
      simp [eq_comm]
    · simp [ha, NetworkSockets.lookup]
  have hnext : t.daemon.nextSocket = s.daemon.nextSocket + 1 := by
    rw [ht]
    rfl
  refine ⟨fun a k => ?_, fun a k hk => ?_, fun a ha => ?_, h.closed_cons nofun, ?_, fun k hk => ?_⟩
  · rw [h.lookup, hlookup, List.mem_cons, SocketAction.opened.injEq, or_assoc]
  · rcases List.mem_cons.mp hk with heq | hk
    · obtain ⟨rfl, rfl⟩ := SocketAction.opened.inj heq
      exact ⟨List.mem_cons_self, Nat.le_refl _⟩
    · obtain ⟨hm, hle⟩ := h.listed a k hk
      exact ⟨List.mem_cons_of_mem _ hm, by omega⟩
  · rcases List.mem_cons.mp ha with rfl | ha
    · exact .inl ⟨_, List.mem_cons_self⟩
    · exact h.attempted_cons _ ha
  · rw [h.network, ht]
    rfl
  · rw [h.table k (by omega), ht]
    exact Function.update_of_ne (Nat.ne_of_lt hk) _ _

theorem Opened.failed {t u : NetworkSockets tls} {addresses : List SocketAddrV6}
    {actions : List SocketAction} (address : SocketAddrV6) (ht : t.daemon = s.daemon)
    (h : Opened t u addresses actions) :
    Opened s u (address :: addresses) (.failed address :: actions) := by
  have hlookup : t.lookup = s.lookup := by
    funext a
    rw [NetworkSockets.lookup, ht]
    rfl
  refine ⟨fun a k => ?_, fun a k hk => ?_, fun a ha => ?_, h.closed_cons nofun, ?_, fun k hk => ?_⟩
  · rw [h.lookup, hlookup, List.mem_cons]
    simp
  · rcases List.mem_cons.mp hk with heq | hk
    · cases heq
    · obtain ⟨hm, hle⟩ := h.listed a k hk
      exact ⟨List.mem_cons_of_mem _ hm, ht ▸ hle⟩
  · rcases List.mem_cons.mp ha with rfl | ha
    · exact .inr List.mem_cons_self
    · exact h.attempted_cons _ ha
  · rw [h.network, ht]
  · rw [h.table k (ht ▸ hk), ht]

theorem openSockets_opened (s : NetworkSockets tls) (addresses : List SocketAddrV6) :
    Opened s (s.openSockets pack platform addresses).1 addresses
      (s.openSockets pack platform addresses).2 := by
  induction addresses generalizing s with
  | nil =>
    exact ⟨by simp [openSockets], by simp [openSockets], by simp, by simp [openSockets], rfl,
      fun _ _ => rfl⟩
  | cons address addresses ih =>
    have hrest := ih (s.openSocket pack platform address).1
    rcases @openSocket_cases tls pack platform s address with
      ⟨hnone, hdaemon, haction⟩ | ⟨hdaemon, haction⟩
    · rw [openSockets, haction]
      exact hrest.opened hnone hdaemon
    · rw [openSockets, haction]
      exact hrest.failed address hdaemon

end Opening

section Reconciling
variable {pack platform}

/-- What `open_new_sockets` has done with the map of sockets: `u` is the daemon afterwards. -/
structure Reconciled (s : NetworkSockets tls) (addresses : List SocketAddrV6) (u : Daemon tls)
    (actions : List SocketAction) : Prop where
  keys : ∀ a, a ∈ u.sockets.keys ↔
    a ∈ addresses ∧ (a ∈ s.daemon.sockets.keys ∨ ∃ k, .opened a k ∈ actions)
  kept : ∀ a k, s.lookup a = some k → a ∈ addresses → u.sockets.lookup a = some k ∧
    (∀ b, .closed b k ∉ actions) ∧
    (u.table k).io.closeSent = (s.daemon.table k).io.closeSent
  removed : ∀ a k, s.lookup a = some k → a ∉ addresses → u.sockets.lookup a = none ∧
    actions.count (.closed a k) = 1 ∧ (∀ b, .closed b k ∈ actions → b = a) ∧
    (u.table k).io.closeSent = true
  replaced : ∀ a k, s.lookup a = some k ∨ .opened a k ∈ actions →
    u.sockets.lookup a = some k ∨ .closed a k ∈ actions
  attempted : ∀ a ∈ addresses, a ∈ u.sockets.keys ∨ .failed a ∈ actions
  network : u.network = s.daemon.network

theorem mem_keys {d : Daemon tls} {a : SocketAddrV6} :
    a ∈ d.sockets.keys ↔ ∃ k, d.sockets.lookup a = some k := by
  rw [← AList.mem_keys, ← AList.lookup_isSome, Option.isSome_iff_exists]

theorem stale_iff (s : NetworkSockets tls) (addresses : List SocketAddrV6) {a : SocketAddrV6} :
    a ∈ s.daemon.sockets.keys.filter (fun a => decide (a ∉ addresses)) ↔
      (∃ k, s.lookup a = some k) ∧ a ∉ addresses := by
  rw [List.mem_filter, decide_eq_true_eq, mem_keys]
  rfl

theorem mem_closings {s : NetworkSockets tls} {stale : List SocketAddrV6} {a : SocketAddrV6}
    {k : ℕ} : .closed a k ∈ stale.filterMap (fun a => (s.lookup a).map (SocketAction.closed a)) ↔
      a ∈ stale ∧ s.lookup a = some k := by
  simp only [List.mem_filterMap, Option.map_eq_some_iff, SocketAction.closed.injEq]
  constructor
  · rintro ⟨b, hb, j, hj, rfl, rfl⟩
    exact ⟨hb, hj⟩
  · rintro ⟨ha, hk⟩
    exact ⟨a, ha, k, hk, rfl, rfl⟩

theorem count_closings {s : NetworkSockets tls} {stale : List SocketAddrV6} (h : stale.Nodup)
    {a : SocketAddrV6} {k : ℕ} (ha : a ∈ stale) (hk : s.lookup a = some k) :
    (stale.filterMap fun a => (s.lookup a).map (SocketAction.closed a)).count (.closed a k) =
      1 := by
  apply List.count_eq_one_of_mem _ (mem_closings.mpr ⟨ha, hk⟩)
  refine h.filterMap fun b c action hb hc => ?_
  obtain ⟨i, _, rfl⟩ := Option.map_eq_some_iff.mp hb
  obtain ⟨j, _, heq⟩ := Option.map_eq_some_iff.mp hc
  exact (SocketAction.closed.inj heq).1.symm

section Reconciled
variable {s t u : NetworkSockets tls} {addresses stale : List SocketAddrV6}
variable {closed opened : List SocketAction} {a : SocketAddrV6} {k : ℕ}

theorem Closed.lookup_iff (h : Closed s t stale closed)
    (hstale : ∀ a, a ∈ stale ↔ (∃ k, s.lookup a = some k) ∧ a ∉ addresses) :
    t.lookup a = some k ↔ s.lookup a = some k ∧ a ∈ addresses := by
  rw [h.lookup]
  by_cases ha : a ∈ stale
  · simp [ha, ((hstale a).mp ha).2]
  · rw [if_neg ha]
    refine ⟨fun hk => ⟨hk, ?_⟩, And.left⟩
    by_contra hnot
    exact ha ((hstale a).mpr ⟨⟨k, hk⟩, hnot⟩)

theorem Closed.mem_actions (h : Closed s t stale closed) (ho : Opened t u addresses opened) :
    .closed a k ∈ closed ++ opened ↔ a ∈ stale ∧ s.lookup a = some k := by
  rw [List.mem_append, or_iff_left (ho.closed a k), h.actions, mem_closings]

theorem Closed.mem_opened (h : Closed s t stale closed) :
    .opened a k ∈ closed ++ opened ↔ .opened a k ∈ opened := by
  rw [List.mem_append, or_iff_right]
  rw [h.actions]
  simp

theorem Closed.table_after (h : Closed s t stale closed) (ho : Opened t u addresses opened)
    (hk : s.lookup a = some k) : u.daemon.table k = t.daemon.table k :=
  ho.table k (h.nextSocket ▸ s.wellFormed.lt a k hk)

theorem Closed.table_kept (h : Closed s t stale closed) (hk : s.lookup a = some k)
    (ha : a ∉ stale) : t.daemon.table k = s.daemon.table k :=
  h.table k fun b hb hbk => ha (s.wellFormed.unique b a k hbk hk ▸ hb)

theorem Opened.settled (h : Opened t u (addresses.filter fun a => (t.lookup a).isNone) opened)
    (ha : a ∈ addresses) : a ∈ u.daemon.sockets.keys ∨ .failed a ∈ opened := by
  cases hl : t.lookup a with
  | some k => exact .inl (mem_keys.mpr ⟨k, (h.lookup a k).mpr (.inl hl)⟩)
  | none =>
    have hnew : a ∈ addresses.filter fun a => (t.lookup a).isNone :=
      List.mem_filter.mpr ⟨ha, by simp [hl]⟩
    refine (h.attempted a hnew).imp_left fun ⟨k, hk⟩ => ?_
    exact mem_keys.mpr ⟨k, (h.lookup a k).mpr (.inr hk)⟩

/-- Closing what is stale and opening what is new reconciles. -/
theorem reconciled_of (hnodup : stale.Nodup)
    (hstale : ∀ a, a ∈ stale ↔ (∃ k, s.lookup a = some k) ∧ a ∉ addresses)
    (hc : Closed s t stale closed)
    (ho : Opened t u (addresses.filter fun a => (t.lookup a).isNone) opened) :
    Reconciled s addresses u.daemon (closed ++ opened) := by
  have hlookup : ∀ a k, u.daemon.sockets.lookup a = some k ↔
      (s.lookup a = some k ∧ a ∈ addresses) ∨ .opened a k ∈ opened := by
    intro a k
    rw [← hc.lookup_iff hstale]
    exact ho.lookup a k
  have hlisted : ∀ a k, .opened a k ∈ opened → a ∈ addresses :=
    fun a k hk => List.mem_of_mem_filter (ho.listed a k hk).1
  refine ⟨fun a => ?_, fun a k hk ha => ?_, fun a k hk ha => ?_, fun a k hk => ?_,
    fun a ha => (ho.settled ha).imp_right (List.mem_append_right _), ?_⟩
  · simp only [mem_keys, hlookup, hc.mem_opened, exists_or]
    constructor
    · rintro (⟨k, hk, ha⟩ | ⟨k, hk⟩)
      · exact ⟨ha, .inl ⟨k, hk⟩⟩
      · exact ⟨hlisted a k hk, .inr ⟨k, hk⟩⟩
    · rintro ⟨ha, ⟨k, hk⟩ | hk⟩
      · exact .inl ⟨k, hk, ha⟩
      · exact .inr hk
  · have hnot : a ∉ stale := fun hs => ((hstale a).mp hs).2 ha
    refine ⟨(hlookup a k).mpr (.inl ⟨hk, ha⟩), fun b hb => ?_, ?_⟩
    · obtain ⟨hb, hbk⟩ := (hc.mem_actions ho).mp hb
      exact hnot (s.wellFormed.unique b a k hbk hk ▸ hb)
    · rw [hc.table_after ho hk, hc.table_kept hk hnot]
  · have hs : a ∈ stale := (hstale a).mpr ⟨⟨k, hk⟩, ha⟩
    refine ⟨?_, ?_, fun b hb => ?_, ?_⟩
    · rw [Option.eq_none_iff_forall_ne_some]
      intro j hj
      rcases (hlookup a j).mp hj with ⟨_, hm⟩ | hj
      · exact ha hm
      · exact ha (hlisted a j hj)
    · rw [List.count_append, hc.actions, count_closings hnodup hs hk,
        List.count_eq_zero_of_not_mem (ho.closed a k)]
    · exact s.wellFormed.unique b a k ((hc.mem_actions ho).mp hb).2 hk
    · rw [hc.table_after ho hk]
      exact hc.closes a hs k hk
  · rcases hk with hk | hk
    · by_cases ha : a ∈ addresses
      · exact .inl ((hlookup a k).mpr (.inl ⟨hk, ha⟩))
      · exact .inr ((hc.mem_actions ho).mpr ⟨(hstale a).mpr ⟨⟨k, hk⟩, ha⟩, hk⟩)
    · exact .inl ((hlookup a k).mpr (.inr (hc.mem_opened.mp hk)))
  · rw [ho.network, hc.network]

end Reconciled

theorem openNewSockets_reconciled (s : NetworkSockets tls) (discovered : List SocketAddrV6) :
    Reconciled s (s.withPort discovered) (s.openNewSockets pack platform discovered).1.daemon
      (s.openNewSockets pack platform discovered).2 :=
  have hnodup := s.daemon.sockets.keys_nodup.filter _
  reconciled_of hnodup (fun _ => stale_iff s _) (s.closeStaleSockets_closed hnodup)
    (openSockets_opened _ _)

/-- Where only addresses failed to be opened that are open by then, nothing is left to be done. -/
theorem openNewSockets_again {s t : NetworkSockets tls} {discovered : List SocketAddrV6}
    {actions : List SocketAction} (h : Reconciled s (s.withPort discovered) t.daemon actions)
    (hfailed : ∀ a, .failed a ∈ actions → a ∈ t.daemon.sockets.keys) :
    t.openNewSockets pack platform discovered = (t, []) := by
  have hport : t.withPort discovered = s.withPort discovered := by
    rw [withPort, withPort, h.network]
  have hstale : t.daemon.sockets.keys.filter
      (fun a => decide (a ∉ t.withPort discovered)) = [] := by
    rw [List.filter_eq_nil_iff, hport]
    intro a ha
    simpa using ((h.keys a).mp ha).1
  have hnew : (t.withPort discovered).filter (fun a => (t.lookup a).isNone) = [] := by
    rw [List.filter_eq_nil_iff, hport]
    intro a ha
    have hopen : a ∈ t.daemon.sockets.keys := (h.attempted a ha).elim id (hfailed a)
    obtain ⟨k, hk⟩ := mem_keys.mp hopen
    have hlookup : t.lookup a = some k := hk
    simp [hlookup]
  rw [openNewSockets]
  simp only [hstale, closeStaleSockets, hnew, openSockets, List.append_nil]

end Reconciling

section Main
variable {pack platform} {s : NetworkSockets tls} {first : ℕ} {queued : ℕ → ℕ → Option Bytes}

theorem closeStaleSockets_exec (s : NetworkSockets tls) (addresses : List SocketAddrV6)
    {stale : List SocketAddrV6} (hnodup : stale.Nodup)
    (h : ∀ a ∈ stale, ∃ k, s.daemon.sockets.lookup a = some k) :
    ∃ events, exec (networkMainMachine tls pack)
      ⟨s.daemon, .closing stale addresses, first, queued⟩ events =
        some ⟨(s.closeStaleSockets pack stale).1.daemon, .closing [] addresses, first, queued⟩ := by
  induction stale generalizing s with
  | nil => exact ⟨[], rfl⟩
  | cons address stale ih =>
    obtain ⟨hnot, hnodup⟩ := List.nodup_cons.mp hnodup
    rw [closeStaleSockets]
    split
    · rename_i k hk
      have hrest : ∀ a ∈ stale,
          ∃ j, (s.close pack address k hk).daemon.sockets.lookup a = some j := by
        intro a ha
        obtain ⟨j, hj⟩ := h a (List.mem_cons_of_mem _ ha)
        have hne : a ≠ address := fun heq => hnot (heq ▸ ha)
        exact ⟨j, (close_lookup hk a).trans ((if_neg hne).trans hj)⟩
      obtain ⟨events, he⟩ := ih _ hnodup hrest
      refine ⟨.closeStale address k stale addresses :: events, ?_⟩
      exact (exec_step (guarded_step.mpr ⟨⟨rfl, Daemon.enabled_closeSocket hk⟩, rfl⟩) _).trans he
    · rename_i hnone
      obtain ⟨k, hk⟩ := h address List.mem_cons_self
      rw [hnone] at hk
      cases hk

theorem openSockets_exec (s : NetworkSockets tls) (addresses : List SocketAddrV6) :
    ∃ events, exec (networkMainMachine tls pack)
      ⟨s.daemon, .opening addresses, first, queued⟩ events =
        some ⟨(s.openSockets pack platform addresses).1.daemon, .opening [], first, queued⟩ := by
  induction addresses generalizing s with
  | nil => exact ⟨[], rfl⟩
  | cons address addresses ih =>
    obtain ⟨events, he⟩ := ih (s.openSocket pack platform address).1
    rcases @openSocket_cases tls pack platform s address with ⟨hnone, hdaemon, _⟩ | ⟨hdaemon, _⟩
    · refine ⟨.openSocket address addresses :: events, ?_⟩
      rw [hdaemon] at he
      refine (exec_step (guarded_step.mpr ⟨⟨rfl, Daemon.enabled_openSocket hnone⟩, rfl⟩) _).trans he
    · refine ⟨.openFailed address addresses :: events, ?_⟩
      rw [hdaemon] at he
      exact (exec_step (guarded_step.mpr ⟨⟨rfl, trivial⟩, rfl⟩) _).trans he

/-- `open_new_sockets` up to the publication is a run of the main task. -/
theorem openNewSockets_exec (s : NetworkSockets tls) (discovered : List SocketAddrV6) :
    ∃ events, exec (networkMainMachine tls pack) ⟨s.daemon, .idle, first, queued⟩ events =
      some ⟨(s.openNewSockets pack platform discovered).1.daemon, .opening [], s.daemon.nextTask,
        queued⟩ := by
  have hnodup := s.daemon.sockets.keys_nodup.filter
    fun a => decide (a ∉ s.withPort discovered)
  have hentry : ∀ a ∈ s.daemon.sockets.keys.filter (fun a => decide (a ∉ s.withPort discovered)),
      ∃ k, s.daemon.sockets.lookup a = some k := fun a ha => ((stale_iff s _).mp ha).1
  obtain ⟨closing, hclosing⟩ := @closeStaleSockets_exec tls pack s.daemon.nextTask queued s
    (s.withPort discovered) _ hnodup hentry
  obtain ⟨opening, hopening⟩ := @openSockets_exec tls pack platform s.daemon.nextTask queued
    (s.closeStaleSockets pack _).1 ((s.withPort discovered).filter fun a =>
      ((s.closeStaleSockets pack _).1.lookup a).isNone)
  refine ⟨.discover discovered :: closing ++ .select (s.withPort discovered) :: opening, ?_⟩
  have hdiscover : exec (networkMainMachine tls pack) ⟨s.daemon, .idle, first, queued⟩
      (.discover discovered :: closing) = _ :=
    (exec_step (guarded_step.mpr ⟨⟨rfl, trivial⟩, rfl⟩) _).trans hclosing
  rw [exec_append, hdiscover, Option.bind_some]
  exact (exec_step (guarded_step.mpr ⟨⟨rfl, trivial⟩, rfl⟩) _).trans hopening

end Main

section Publishing
variable {pack platform}

def publishes : MainEvent tls → Bool
  | .publish | .readConnections .. | .sendPeerInfo .. | .sendFailed .. | .finish _ => true
  | _ => false

structure SameSockets (d u : Daemon tls) : Prop where
  sockets : u.sockets = d.sockets
  network : u.network = d.network
  closeSent : ∀ k, (u.table k).io.closeSent = (d.table k).io.closeSent

theorem SameSockets.publishes {m : NetworkMain tls} {e : MainEvent tls} {d : Daemon tls}
    (h : SameSockets d m.daemon) (he : publishes e = true) :
    SameSockets d (m.next pack e).daemon := by
  cases e with
  | sendPeerInfo peer sockets k q connections data =>
    refine ⟨h.sockets, h.network, fun j => ?_⟩
    rw [← h.closeSent j]
    show (Daemon.onTable m.daemon.table (k, .connection q (.send (.data 0 0 data))) j).io.closeSent
      = _
    by_cases hj : j = k
    · subst hj
      rw [Daemon.onTable, Function.update_self]
      rfl
    · rw [Daemon.onTable, Function.update_of_ne hj]
  | publish | readConnections | sendFailed | finish => exact h
  | daemon | discover | closeStale | select | openSocket | openFailed => cases he

theorem Reconciled.same {s : NetworkSockets tls} {addresses : List SocketAddrV6}
    {d u : Daemon tls} {actions : List SocketAction} (h : Reconciled s addresses d actions)
    (hu : SameSockets d u) : Reconciled s addresses u actions := by
  refine ⟨?_, ?_, ?_, ?_, ?_, hu.network.trans h.network⟩
  · simpa only [hu.sockets] using h.keys
  · simpa only [hu.sockets, hu.closeSent] using h.kept
  · simpa only [hu.sockets, hu.closeSent] using h.removed
  · simpa only [hu.sockets] using h.replaced
  · simpa only [hu.sockets] using h.attempted

/-- After `open_new_sockets` and its publication the sockets are those of the discovered addresses,
and the same call changes nothing more unless an address could not be opened. -/
theorem sockets_reconciled (s : NetworkSockets tls) (discovered : List SocketAddrV6) {first : ℕ}
    {queued : ℕ → ℕ → Option Bytes} {trace : List (Transition (NetworkMain tls) (MainEvent tls))}
    {u : NetworkMain tls}
    (path : Path (networkMainMachine tls pack)
      ⟨(s.openNewSockets pack platform discovered).1.daemon, .opening [], first, queued⟩ trace u)
    (hpublish : ∀ x ∈ trace, publishes x.label = true) :
    Reconciled s (s.withPort discovered) u.daemon (s.openNewSockets pack platform discovered).2 ∧
    ∀ (again : NetworkSockets tls) (platform' : Platform), again.daemon = u.daemon →
      (∀ a, .failed a ∈ (s.openNewSockets pack platform discovered).2 →
        a ∈ u.daemon.sockets.keys) →
      again.openNewSockets pack platform' discovered = (again, []) := by
  have hsame : SameSockets (s.openNewSockets pack platform discovered).1.daemon u.daemon :=
    (path.guarded_invariant
      (P := fun m => SameSockets (s.openNewSockets pack platform discovered).1.daemon m.daemon)
      (G := fun _ e => publishes e = true) (fun _ _ hm hg _ => hm.publishes hg)
      ⟨rfl, rfl, fun _ => rfl⟩ hpublish).1
  have hreconciled := (@openNewSockets_reconciled tls pack platform s discovered).same hsame
  refine ⟨hreconciled, fun again platform' hagain hfailed => ?_⟩
  rw [← hagain] at hreconciled hfailed
  exact openNewSockets_again hreconciled hfailed

end Publishing

def unboundPlatform : Platform where
  bind bound address _ := decide (address ∉ bound)
  acceptorForId _ := true
  exclusive bound address _ h := by simp [h]

def noSockets : NetworkSockets keyTls where
  daemon := .new keyTls ⟨digestTwo, .new, [], 65041⟩
  bound := []
  attempts := 0
  wellFormed := .new _
  stored address k h := by simp [Daemon.new, AList.lookup_empty] at h

def keptAddr : SocketAddrV6 := ⟨0xfd000000000000000000000000000008, 65041, 0, 0⟩

def twoSockets : NetworkSockets keyTls :=
  (noSockets.openNewSockets (.ofTable []) unboundPlatform [keptAddr, hostAddr]).1

def publishedRecord : Peer := ⟨digestTwo, [localAddr, keptAddr], []⟩

def publishEvents : List (MainEvent keyTls) :=
  [.publish, .readConnections publishedRecord 2 [0], .readConnections publishedRecord 0 [],
    .finish publishedRecord]

/-- One of the two addresses is gone, and a new one is discovered twice. -/
theorem sockets_reconciled_twice : ∃ u : NetworkMain keyTls, u.phase = .idle ∧
    u.daemon.sockets.keys = [localAddr, keptAddr] ∧
    Reconciled twoSockets [localAddr, keptAddr, localAddr] u.daemon
      [.closed hostAddr 1, .opened localAddr 2, .failed localAddr] := by
  have hrun : (exec (networkMainMachine keyTls (.ofTable []))
      ⟨(twoSockets.openNewSockets (.ofTable []) unboundPlatform
        [localAddr, keptAddr, localAddr]).1.daemon, .opening [], 0, fun _ _ => none⟩
      publishEvents).any (fun u =>
        decide (u.phase = .idle ∧ u.daemon.sockets.keys = [localAddr, keptAddr])) = true := by
    decide +kernel
  obtain ⟨u, hexec, hu⟩ := (Option.any_eq_true ..).mp hrun
  obtain ⟨trace, path, hlabels⟩ := exec_path hexec
  have hpublish : ∀ x ∈ trace, publishes x.label = true := by
    intro x hx
    have hall : publishEvents.all publishes = true := rfl
    exact List.all_eq_true.mp hall x.label (hlabels ▸ List.mem_map_of_mem hx)
  obtain ⟨hphase, hkeys⟩ := of_decide_eq_true hu
  exact ⟨u, hphase, hkeys, (sockets_reconciled twoSockets _ path hpublish).1⟩

end NetworkSockets

end Uip
