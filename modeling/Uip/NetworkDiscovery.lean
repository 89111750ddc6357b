import Uip.DisplayTexts
import Uip.NetworkSockets

/-!
# Discovering the addresses of the host

`discover_addresses` and the two ways in which `open_new_sockets` goes on. The interfaces, or the
text of the error in their place, come from the operating system. `frames` is the number of nested
calls that the stack still holds; a call that overflows it ends the daemon.
-/
namespace Uip
open Formatting Transport

structure Interface where
  name : Bytes
  isLoopback : Bool
  isRunning : Bool
  addresses : List (Option SocketAddr)

abbrev InterfaceName := Vector UInt8 16

/-- `copy_from_slice`: a long name is cut, a short one filled up with zeros. -/
def InterfaceName.copyFromSlice (slice : Bytes) : InterfaceName :=
  Vector.ofFn fun i => slice.getD i 0

structure LocalAddress where
  interface : InterfaceName
  address : SocketAddrV6
  deriving DecidableEq

def LocalAddress.new (interface : Bytes) (address : SocketAddrV6) : LocalAddress :=
  ⟨.copyFromSlice interface, address⟩

section Discovering
variable (isGlobal : BitVec 128 → Bool)

def Interface.localAddresses (interface : Interface) : List LocalAddress :=
  interface.addresses.filterMap fun address => match address with
    | some (.v6 addr) => if isGlobal addr.ip then some (.new interface.name addr) else none
    | _ => none

def discoverAddresses :
    Except Text (List Interface) → Except AddressDiscoveryError (List LocalAddress)
  | .error shown => .error (.interfacesError ("Error while fetching interfaces: ".toList ++ shown))
  | .ok interfaces => .ok ((interfaces.filter fun interface =>
      !interface.isLoopback && interface.isRunning).flatMap (Interface.localAddresses isGlobal))

variable {isGlobal}

theorem discoverAddresses_eq_error {interfaces : Except Text (List Interface)}
    {err : AddressDiscoveryError} : discoverAddresses isGlobal interfaces = .error err ↔
      ∃ shown, interfaces = .error shown ∧
        err.description = "Error while fetching interfaces: ".toList ++ shown := by
  cases err with
  | interfacesError string =>
    cases interfaces with
    | error shown => simp [discoverAddresses, AddressDiscoveryError.description, eq_comm]
    | ok interfaces => simp [discoverAddresses]

theorem discoverAddresses_global {interfaces : List Interface} {addresses : List LocalAddress}
    (h : discoverAddresses isGlobal (.ok interfaces) = .ok addresses) :
    ∀ address ∈ addresses, isGlobal address.address.ip = true := by
  obtain rfl := Except.ok.inj h
  intro address ha
  obtain ⟨interface, _, ha⟩ := List.mem_flatMap.mp ha
  obtain ⟨found, _, hfound⟩ := List.mem_filterMap.mp ha
  split at hfound
  · rename_i addr
    split_ifs at hfound with hglobal
    obtain rfl := Option.some.inj hfound
    exact hglobal
  · cases hfound

end Discovering

/-- The logger: whether it takes warnings, what it writes in front of a message, and where to. -/
structure Logger (W : Type) where
  warns : Bool
  header : List Text
  output : Sink Char W

namespace Logger

variable {W : Type} (logger : Logger W)

/-- `warn!`, which formats its message only for a logger that takes it. -/
def warn (frames : ℕ) (message : List (Piece Char Shown)) (w : W) : Formatted W :=
  if logger.warns then
    logger.output.write (logger.output.fmt display frames)
      (logger.header.map .literal ++ message ++ [.literal ['\n']]) w
  else .done w

end Logger

def enumerating : Text := "Error enumerating network interfaces: ".toList

namespace NetworkDiscovery

variable {tls : Tls} {W : Type} (pack : MessagePack) (platform : Platform) (logger : Logger W)

/-- `open_new_sockets` up to the publication, with the log; `none` where the stack overflows. -/
def openNewSockets (frames : ℕ) (s : NetworkSockets tls) (w : W) :
    Except AddressDiscoveryError (List LocalAddress) →
      Option (NetworkSockets tls × List SocketAction × W)
  | .ok addresses =>
    let opened := s.openNewSockets pack platform (addresses.map LocalAddress.address)
    some (opened.1, opened.2, w)
  | .error err =>
    (logger.warn frames [.literal enumerating, .argument (.discoveryError err)] w).returned.map
      fun w => (s, [], w)

/-- The error displays its message, and `open_new_sockets` returns with everything as it was. -/
structure Survives (s : NetworkSockets tls) (w : W) (err : AddressDiscoveryError) : Prop where
  displays : ∃ frames, Displays display frames (.discoveryError err) err.description
  returns : ∃ frames w', openNewSockets pack platform logger frames s w (.error err) =
    some (s, [], w')

/-- The logger takes a warning and can write what stands in front of the error. -/
def Reaches (w : W) : Prop :=
  logger.warns = true ∧ ∃ u, logger.output.writeAll w (logger.header ++ [enumerating]) = .ok u

variable {pack platform logger} {s : NetworkSockets tls} {w : W} {err : AddressDiscoveryError}

theorem warn_eq (frames : ℕ) :
    logger.warn frames [.literal enumerating, .argument (.discoveryError err)] w =
      if logger.warns then
        (Formatted.ofWrite (logger.output.writeAll w (logger.header ++ [enumerating]))).bind
          fun _ => .overflow
      else .done w := by
  have hpieces : logger.header.map Piece.literal ++
      [.literal enumerating, .argument (Shown.discoveryError err)] ++ [.literal ['\n']] =
      (logger.header ++ [enumerating]).map Piece.literal ++
        [.argument (Shown.discoveryError err), .literal ['\n']] := by
    simp
  rw [Logger.warn, hpieces, Sink.write_literals]
  congr 2
  funext u
  rw [Sink.write, Shown.discoveryError_overflow]
  rfl

theorem warn_overflow_iff (frames : ℕ) :
    logger.warn frames [.literal enumerating, .argument (.discoveryError err)] w = .overflow ↔
      Reaches logger w := by
  rw [warn_eq, Reaches]
  cases logger.warns with
  | false => simp
  | true =>
    cases logger.output.writeAll w (logger.header ++ [enumerating]) <;>
      simp [Formatted.ofWrite]

theorem openNewSockets_eq_none (frames : ℕ) :
    openNewSockets pack platform logger frames s w (.error err) = none ↔ Reaches logger w := by
  rw [openNewSockets, Option.map_eq_none_iff, Formatted.returned_eq_none, warn_overflow_iff]

/-- Where the call returns, it has changed nothing. -/
theorem openNewSockets_eq_some {frames : ℕ} {t : NetworkSockets tls × List SocketAction × W}
    (h : openNewSockets pack platform logger frames s w (.error err) = some t) :
    t.1 = s ∧ t.2.1 = [] := by
  obtain ⟨u, _, rfl⟩ := Option.map_eq_some_iff.mp h
  exact ⟨rfl, rfl⟩

theorem not_survives : ¬ Survives pack platform logger s w err := by
  intro h
  obtain ⟨frames, hdisplays⟩ := h.displays
  have hover := hdisplays []
  rw [Shown.discoveryError_overflow] at hover
  cases hover

/-- No error of the discovery is ever displayed, whatever it is written to and however deep the
stack is; `open_new_sockets` returns, with everything as it was, exactly where the logger does not
come to display the error. -/
theorem enumeration_never_survived (pack : MessagePack) (platform : Platform) (logger : Logger W)
    (s : NetworkSockets tls) (w : W) (err : AddressDiscoveryError) :
    ¬ Survives pack platform logger s w err ∧
    (∀ {V : Type} (sink : Sink Char V) (frames : ℕ) (v : V),
      sink.fmt display frames (.discoveryError err) v = .overflow) ∧
    ((∃ frames w', openNewSockets pack platform logger frames s w (.error err) =
      some (s, [], w')) ↔ ¬ Reaches logger w) := by
  refine ⟨not_survives, fun sink frames v => Shown.discoveryError_overflow sink frames err v, ?_⟩
  constructor
  · rintro ⟨frames, w', h⟩ hreaches
    rw [(openNewSockets_eq_none frames).mpr hreaches] at h
    cases h
  · intro h
    have hsome : openNewSockets pack platform logger 0 s w (.error err) ≠ none :=
      mt (openNewSockets_eq_none 0).mp h
    obtain ⟨⟨t, actions, w'⟩, ht⟩ := Option.ne_none_iff_exists'.mp hsome
    obtain ⟨rfl, rfl⟩ := openNewSockets_eq_some ht
    exact ⟨0, w', ht⟩

def uipdLogger : Logger Text := ⟨true, ["[WARN][uip::network::state] ".toList], string Char⟩

/-- The interfaces cannot be listed, and the daemon goes down on any stack. -/
theorem enumeration_overflows :
    ∃ err, discoverAddresses (fun _ => true) (.error "No such device".toList) = .error err ∧
      err.description = "Error while fetching interfaces: No such device".toList ∧
      (∀ frames, (string Char).fmt display frames (.discoveryError err) [] = .overflow) ∧
      (∀ frames, openNewSockets (.ofTable []) NetworkSockets.unboundPlatform uipdLogger frames
        NetworkSockets.noSockets [] (.error err) = none) ∧
      ¬ Survives (.ofTable []) NetworkSockets.unboundPlatform uipdLogger
        NetworkSockets.noSockets [] err := by
  refine ⟨_, rfl, rfl, fun frames => Shown.discoveryError_overflow _ frames _ _, fun frames => ?_,
    not_survives⟩
  exact (openNewSockets_eq_none frames).mpr ⟨rfl, _, rfl⟩

end NetworkDiscovery

end Uip
