import Uip.RwLocks

/-!
# The locks of shared values

`Shared::read` and `Shared::write` return guards that live to the end of the enclosing statement
unless they are bound: those in the scrutinee of a `match` or an `if let` to the end of its last
branch, those in the tail expression of a function to its end. What the maps hold, and whether a
handshake succeeds, decides the branch of a function; the model runs each.
-/
namespace Uip.Shared
open TransitionSystem RwLocks

/-- One lock guards the network state, and each socket has one for its transport and one for its
demultiplexer. -/
inductive SharedLock
  | network
  | transport (socket : ℕ)
  | io (socket : ℕ)
  deriving DecidableEq

abbrev Program := List (Op SharedLock)

def read (lock : SharedLock) (body : Program) : Program := hold ⟨lock, .read⟩ body

def write (lock : SharedLock) (body : Program) : Program := hold ⟨lock, .write⟩ body

namespace Io

def close (socket : ℕ) : Program := write (.io socket) []

def connect (socket : ℕ) : Program :=
  write (.io socket) [] ++ read (.io socket) (read (.io socket) [])

/-- The remote is known or not, and the datagram is sent or not. -/
def forwardOrNewConnection (socket : ℕ) (known sent : Bool) : Program :=
  read (.io socket) (if known then [] else read (.io socket) (read (.io socket) [])) ++
    if sent then write (.io socket) [] else []

end Io

namespace Transport

def close (socket : ℕ) : Program := write (.transport socket) (Io.close socket)

def getConnection (socket : ℕ) : Program := read (.transport socket) []

inductive Opening
  | notConfigured
  | handshakeFailed
  | opened

def openConnection (socket : ℕ) (opening : Opening) : Program :=
  read (.transport socket) [] ++
    match opening with
    | .notConfigured => []
    | .handshakeFailed => read (.transport socket) (Io.connect socket)
    | .opened => read (.transport socket) (Io.connect socket) ++ read (.transport socket) []

end Transport

namespace Network

def externalAddresses : Program := read .network []

def myPeerInformation : Program := read .network (externalAddresses ++ read .network [])

def publishAddresses (sockets : List ℕ) : Program :=
  myPeerInformation ++ read .network [] ++ sockets.flatMap fun socket => read (.transport socket) []

def closeStaleSockets (stale : List (Option ℕ)) : Program :=
  read .network [] ++ stale.flatMap fun socket => write .network (socket.elim [] Transport.close)

inductive Connecting
  | addressNotFound
  | notConnected
  | opens (socket : ℕ) (opening : Transport.Opening)

def connect (connecting : Connecting) : Program :=
  read .network [] ++
    match connecting with
    | .addressNotFound => []
    | .notConnected => read .network []
    | .opens socket opening => read .network [] ++ Transport.openConnection socket opening

/-- The sockets that are asked, the last of which may have a connection. -/
def getConnection (asked : List ℕ) (connecting : Option Connecting) : Program :=
  read .network (asked.flatMap Transport.getConnection) ++ connecting.elim [] connect

inductive ControlMessage
  | peerInfo (own : Bool)
  | peerInfoRequest (known : Option (List ℕ × Option Connecting))
  | invalid

def processControlMessage : ControlMessage → Program
  | .peerInfo own => if own then write .network [] else []
  | .peerInfoRequest known =>
    read .network [] ++ known.elim [] fun (asked, connecting) => getConnection asked connecting
  | .invalid => []

end Network

inductive Call
  | ioClose (socket : ℕ)
  | ioConnect (socket : ℕ)
  | forwardOrNewConnection (socket : ℕ) (known sent : Bool)
  | close (socket : ℕ)
  | openConnection (socket : ℕ) (opening : Transport.Opening)
  | myPeerInformation
  | publishAddresses (sockets : List ℕ)
  | getConnection (asked : List ℕ) (connecting : Option Network.Connecting)
  | closeStaleSockets (stale : List (Option ℕ))
  | processControlMessage (message : Network.ControlMessage)

def Call.program : Call → Program
  | .ioClose socket => Io.close socket
  | .ioConnect socket => Io.connect socket
  | .forwardOrNewConnection socket known sent => Io.forwardOrNewConnection socket known sent
  | .close socket => Transport.close socket
  | .openConnection socket opening => Transport.openConnection socket opening
  | .myPeerInformation => Network.myPeerInformation
  | .publishAddresses sockets => Network.publishAddresses sockets
  | .getConnection asked connecting => Network.getConnection asked connecting
  | .closeStaleSockets stale => Network.closeStaleSockets stale
  | .processControlMessage message => Network.processControlMessage message

def task (calls : List Call) : RwLocks.Task SharedLock := .start (calls.flatMap Call.program)

/-- Any tasks that make such calls. -/
def sharedMachine (T : Type) [Fintype T] [DecidableEq T] :
    Machine (T → RwLocks.Task SharedLock) (Event T) :=
  machine fun s => ∀ t, ∃ calls, s t = task calls

/-- The order in which the locks are taken. -/
def SharedLock.rank : SharedLock → ℕ
  | .network => 0
  | .transport _ => 1
  | .io _ => 2

section Order

variable {held : List (Guard SharedLock)} {lock : SharedLock} {body : Program} {socket : ℕ}

def Below (lock : SharedLock) (held : List (Guard SharedLock)) : Prop :=
  ∀ h ∈ held, h.lock.rank < lock.rank

def Readable (lock : SharedLock) (held : List (Guard SharedLock)) : Prop :=
  ∀ h ∈ held, h.lock.rank < lock.rank ∨ h = ⟨lock, .read⟩

theorem Below.nil : Below lock [] := by simp [Below]

theorem Below.cons {earlier : SharedLock} (h : Below earlier held) (mode : Mode)
    (hlt : earlier.rank < lock.rank) : Below lock (⟨earlier, mode⟩ :: held) := by
  intro k hk
  rcases List.mem_cons.mp hk with rfl | hk
  · exact hlt
  · exact Nat.lt_trans (h k hk) hlt

theorem Below.readable (h : Below lock held) : Readable lock held := fun k hk => .inl (h k hk)

theorem Readable.cons (h : Readable lock held) : Readable lock (⟨lock, .read⟩ :: held) := by
  intro k hk
  rcases List.mem_cons.mp hk with hread | hk
  · exact .inr hread
  · exact h k hk

theorem fits_write (h : Below lock held)
    (hbody : Fits SharedLock.rank (⟨lock, .write⟩ :: held) body) :
    Fits SharedLock.rank held (write lock body) :=
  .hold (fun k hk => .inl (h k hk)) hbody

theorem fits_read (h : Readable lock held)
    (hbody : Fits SharedLock.rank (⟨lock, .read⟩ :: held) body) :
    Fits SharedLock.rank held (read lock body) := by
  refine .hold (fun k hk => (h k hk).imp_right fun hread => ?_) hbody
  subst hread
  exact ⟨rfl, rfl⟩

theorem read_fits : Fits SharedLock.rank [] (read lock []) := fits_read Below.nil.readable .nil

namespace Io

theorem close_fits (h : Below (.io socket) held) : Fits SharedLock.rank held (close socket) :=
  fits_write h .nil

theorem connect_fits (h : Below (.io socket) held) :
    Fits SharedLock.rank held (connect socket) := by
  apply (fits_write h .nil).append
  exact fits_read h.readable (fits_read h.readable.cons .nil)

theorem forwardOrNewConnection_fits (known sent : Bool) :
    Fits SharedLock.rank [] (forwardOrNewConnection socket known sent) := by
  have hread : Readable (.io socket) [] := Below.nil.readable
  apply Fits.append
  · cases known with
    | true => exact fits_read hread .nil
    | false => exact fits_read hread (fits_read hread.cons (fits_read hread.cons.cons .nil))
  · cases sent with
    | true => exact fits_write .nil .nil
    | false => exact .nil

end Io

namespace Transport

theorem below_io (h : Below (.transport socket) held) (mode : Mode) :
    Below (.io socket) (⟨.transport socket, mode⟩ :: held) := h.cons mode Nat.one_lt_two

theorem close_fits (h : Below (.transport socket) held) :
    Fits SharedLock.rank held (close socket) :=
  fits_write h (Io.close_fits (below_io h .write))

theorem getConnection_fits (h : Below (.transport socket) held) :
    Fits SharedLock.rank held (getConnection socket) :=
  fits_read h.readable .nil

theorem openConnection_fits (opening : Opening) :
    Fits SharedLock.rank [] (openConnection socket opening) := by
  have hconnect : Fits SharedLock.rank [] (read (.transport socket) (Io.connect socket)) :=
    fits_read Below.nil.readable (Io.connect_fits (below_io .nil .read))
  apply read_fits.append
  cases opening with
  | notConfigured => exact .nil
  | handshakeFailed => exact hconnect
  | opened => exact hconnect.append read_fits

end Transport

namespace Network

theorem below_transport (socket : ℕ) (mode : Mode) :
    Below (.transport socket) [⟨.network, mode⟩] := Below.nil.cons mode Nat.zero_lt_one

theorem myPeerInformation_fits : Fits SharedLock.rank [] myPeerInformation := by
  have hread : Fits SharedLock.rank [⟨.network, .read⟩] (read .network []) :=
    fits_read Below.nil.readable.cons .nil
  exact fits_read Below.nil.readable (hread.append hread)

theorem publishAddresses_fits (sockets : List ℕ) :
    Fits SharedLock.rank [] (publishAddresses sockets) := by
  apply (myPeerInformation_fits.append read_fits).append
  exact .flatMap (fun socket => read_fits) sockets

theorem closeStaleSockets_fits (stale : List (Option ℕ)) :
    Fits SharedLock.rank [] (closeStaleSockets stale) := by
  apply read_fits.append
  refine .flatMap (fun socket => fits_write .nil ?_) stale
  cases socket with
  | none => exact .nil
  | some socket => exact Transport.close_fits (below_transport socket .write)

theorem connect_fits (connecting : Connecting) : Fits SharedLock.rank [] (connect connecting) := by
  apply read_fits.append
  cases connecting with
  | addressNotFound => exact .nil
  | notConnected => exact read_fits
  | opens socket opening => exact read_fits.append (Transport.openConnection_fits opening)

theorem getConnection_fits (asked : List ℕ) (connecting : Option Connecting) :
    Fits SharedLock.rank [] (getConnection asked connecting) := by
  apply Fits.append
  · apply fits_read Below.nil.readable
    exact .flatMap (fun socket => Transport.getConnection_fits (below_transport socket .read)) asked
  · cases connecting with
    | none => exact .nil
    | some connecting => exact connect_fits connecting

theorem processControlMessage_fits (message : ControlMessage) :
    Fits SharedLock.rank [] (processControlMessage message) := by
  cases message with
  | peerInfo own =>
    cases own with
    | true => exact fits_write .nil .nil
    | false => exact .nil
  | peerInfoRequest known =>
    apply read_fits.append
    cases known with
    | none => exact .nil
    | some found => exact getConnection_fits found.1 found.2
  | invalid => exact .nil

end Network

theorem Call.fits (call : Call) : Fits SharedLock.rank [] call.program := by
  cases call with
  | ioClose socket => exact Io.close_fits .nil
  | ioConnect socket => exact Io.connect_fits .nil
  | forwardOrNewConnection socket known sent => exact Io.forwardOrNewConnection_fits known sent
  | close socket => exact Transport.close_fits .nil
  | openConnection socket opening => exact Transport.openConnection_fits opening
  | myPeerInformation => exact Network.myPeerInformation_fits
  | publishAddresses sockets => exact Network.publishAddresses_fits sockets
  | getConnection asked connecting => exact Network.getConnection_fits asked connecting
  | closeStaleSockets stale => exact Network.closeStaleSockets_fits stale
  | processControlMessage message => exact Network.processControlMessage_fits message

theorem task_ordered (calls : List Call) : (task calls).Ordered SharedLock.rank :=
  (Fits.flatMap Call.fits calls).ordered

end Order

section Deadlocks

variable {T : Type} [Fintype T] [DecidableEq T]

/-- In a run in which no task begins to wait to write a lock while another holds it for reading and
is still to read it again, there is no deadlock; any other step can be followed by one. -/
theorem shared_locks_deadlock_free (r : Run (sharedMachine T)) :
    ((∀ x ∈ r.transitions, quiet x.source x.label) →
      ∀ x ∈ r.transitions, ∀ tasks, ¬ Deadlocked x.target tasks) ∧
    ∀ e, enabled r.final e → ¬ quiet r.final e → ∃ t trace,
      Path (sharedMachine T) (next r.final e) trace t ∧ ∃ tasks, Deadlocked t tasks := by
  have hstart : ∀ t, (r.start t).Ordered SharedLock.rank := by
    intro t
    obtain ⟨calls, hcalls⟩ := r.starts t
    rw [hcalls]
    exact task_ordered calls
  constructor
  · intro hquiet x hx tasks
    have hunread : Unread r.start := by
      intro t l ht
      obtain ⟨calls, hcalls⟩ := r.starts t
      rw [hcalls] at ht
      cases ht
    have hx' := (r.path.guarded_invariant (G := quiet)
      (P := fun s => (∀ t, (s t).Ordered SharedLock.rank) ∧ Unread s)
      (fun s e h hq he => ⟨ordered_next h.1 he, h.2.next hq he⟩) ⟨hstart, hunread⟩ hquiet).2 x hx
    exact hx'.2.2.not_deadlocked hx'.2.1 tasks
  · intro e he hq
    have hfinal := (r.path.guarded_invariant (G := fun _ _ => True)
      (P := fun s => ∀ t, (s t).Ordered SharedLock.rank)
      (fun s e h _ he => ordered_next h he) hstart fun _ _ => trivial).1
    exact deadlocks_of_not_quiet hfinal he hq

def sharingTasks : Bool → RwLocks.Task SharedLock
  | true => task [.myPeerInformation]
  | false => task [.processControlMessage (.peerInfo true)]

/-- The network state is to be written between two of its reads. -/
theorem shared_locks_deadlock : ∃ s, Reachable (sharedMachine Bool) s ∧ Deadlocked s Set.univ := by
  obtain ⟨s, hs, hp⟩ := exec_reachable (M := sharedMachine Bool) (s := sharingTasks)
    (fun t => by cases t <;> exact ⟨_, rfl⟩)
    [.request true, .acquire true, .request false, .request true]
    (p := fun s => decide (∀ t, ∃ u, (s t).waitsFor (s u))) (by decide +kernel)
  refine ⟨s, hs, ⟨true, trivial⟩, fun t _ => ?_⟩
  obtain ⟨u, hu⟩ := of_decide_eq_true hp t
  exact ⟨u, trivial, hu⟩

end Deadlocks

end Uip.Shared
