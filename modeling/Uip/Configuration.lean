import Uip.Checkpoints
import Uip.DaemonSending

/-!
# The configuration over restarts

The daemon reads its configuration when it starts and writes it when it is interrupted. In between
only the records of its peers change; a daemon that ends otherwise leaves the file as it was.
-/
namespace Uip
open TransitionSystem Transport Checkpoints

variable {tls : Tls} {pack : MessagePack}

/-- The key and the certificate are in PEM form. -/
structure Identity where
  identifier : Identifier
  key : Bytes
  cert : Bytes
  deriving DecidableEq

structure Configuration where
  port : UInt16
  ctlSocket : Bytes
  relays : List Identifier
  id : Identity
  pib : PeerInformationBase

/-- `fromStr` is `none` as well where the key or the certificate cannot be read. -/
structure Toml where
  Text : Type
  toStringPretty : Configuration → Option Text
  fromStr : Text → Option Configuration

def SocketAddrV6.bare (address : SocketAddrV6) : SocketAddrV6 :=
  { address with flowinfo := 0, scopeId := 0 }

def Peer.bare (peer : Peer) : Peer := { peer with addresses := peer.addresses.map .bare }

/-- What is read is what was written, but for flow information and scopes, which the text of an
address need not show. -/
def Toml.Keeps (toml : Toml) : Prop :=
  ∀ config text config', toml.toStringPretty config = some text →
    toml.fromStr text = some config' →
    config'.port = config.port ∧ config'.ctlSocket = config.ctlSocket ∧
      config'.relays = config.relays ∧ config'.id = config.id ∧
      ∀ host, (config'.pib.getPeer host).map Peer.bare = (config.pib.getPeer host).map Peer.bare

def generateConfiguration (toml : Toml) (id : Identity) : Option toml.Text :=
  toml.toStringPretty
    ⟨0, "/run/user/1000/".toUTF8.toList ++ id.identifier.display ++ ".sock".toUTF8.toList, [], id,
      .new⟩

structure Uipd (tls : Tls) where
  id : Identity
  ctlSocket : Bytes
  daemon : Daemon tls

namespace Uipd

def effectivePort (port : UInt16) : UInt16 := if port = 0 then 0xfe11 else port

def start (tls : Tls) (config : Configuration) : Uipd tls :=
  ⟨config.id, config.ctlSocket,
    .new tls ⟨config.id.identifier, config.pib, config.relays, effectivePort config.port⟩⟩

def configuration (s : Uipd tls) : Configuration :=
  ⟨s.daemon.network.port, s.ctlSocket, s.daemon.network.relays, s.id, s.daemon.network.pib⟩

end Uipd

/-- The daemon with its configuration file. -/
def uipd (tls : Tls) (pack : MessagePack) (toml : Toml) :
    Service (Uipd tls) (DaemonEvent tls) toml.Text where
  load text := (toml.fromStr text).map (Uipd.start tls)
  step s e := ((daemonMachine tls pack).step s.daemon e).map fun d => { s with daemon := d }
  save s := toml.toStringPretty s.configuration

/-- What a daemon works with of its configuration, its peers' records by their host. -/
structure Settings where
  port : UInt16
  ctlSocket : Bytes
  relays : List Identifier
  id : Identity
  records : Identifier → Option Peer

namespace Settings

def announced (pack : MessagePack) (s : Settings) (e : DaemonEvent tls) : Settings :=
  { s with records := fun host => (e.announces pack host).or (s.records host) }

def bare (s : Settings) : Settings := { s with records := fun host => (s.records host).map .bare }

theorem announced_foldl (s : Settings) (events : List (DaemonEvent tls)) :
    events.foldl (announced pack) s = { s with
      records := fun host =>
        (events.filterMap (DaemonEvent.announces pack host)).getLast?.or (s.records host) } := by
  induction events using List.reverseRecOn with
  | nil => rfl
  | append_singleton events e ih =>
    rw [List.foldl_append, ih]
    simp only [List.foldl_cons, List.foldl_nil, announced, Settings.mk.injEq, true_and]
    funext host
    rw [List.filterMap_append, List.getLast?_append]
    cases ha : e.announces pack host <;> simp [ha]

end Settings

namespace Uipd

def settings (s : Uipd tls) : Settings :=
  ⟨s.daemon.network.port, s.ctlSocket, s.daemon.network.relays, s.id,
    s.daemon.network.pib.getPeer⟩

/-- The network state bears the identifier of the identity and has a port. -/
structure Configured (s : Uipd tls) : Prop where
  identifier : s.daemon.network.id = s.id.identifier
  port : s.daemon.network.port ≠ 0

theorem effectivePort_ne_zero (port : UInt16) : effectivePort port ≠ 0 := by
  unfold effectivePort
  split_ifs with h
  · decide
  · exact h

theorem effectivePort_of_ne_zero {port : UInt16} (h : port ≠ 0) : effectivePort port = port :=
  if_neg h

theorem Configured.start (config : Configuration) : (start tls config).Configured :=
  ⟨rfl, effectivePort_ne_zero config.port⟩

theorem daemon_frame {d d' : Daemon tls} {e : DaemonEvent tls}
    (h : (daemonMachine tls pack).step d e = some d') :
    d'.network.id = d.network.id ∧ d'.network.relays = d.network.relays ∧
      d'.network.port = d.network.port := by
  obtain ⟨-, rfl⟩ := guarded_step.mp h
  rcases d.next_network e with hs | ⟨n, delivery, reply, -, hresult⟩
  · rw [hs]
    exact ⟨rfl, rfl, rfl⟩
  · exact NetworkState.processControlMessage_frame hresult

theorem kept {toml : Toml} (htoml : toml.Keeps) :
    Kept (uipd tls pack toml) Configured settings (Settings.announced pack) Settings.bare where
  loaded text s h := by
    obtain ⟨config, -, rfl⟩ := Option.map_eq_some_iff.mp h
    exact .start config
  steps s e t hs h := by
    obtain ⟨d, hd, rfl⟩ := Option.map_eq_some_iff.mp h
    obtain ⟨hid, hrelays, hport⟩ := daemon_frame hd
    refine ⟨⟨hid.trans hs.identifier, fun hzero => hs.port (hport.symm.trans hzero)⟩, ?_⟩
    have hrecords : d.network.pib.getPeer =
        fun host => (e.announces pack host).or (s.daemon.network.pib.getPeer host) := by
      funext host
      rw [getPeer_of_path (.single hd) host]
      cases ha : e.announces pack host <;> simp [ha]
    simp only [settings, Settings.announced, hport, hrelays, hrecords]
  saved s text t hs hsave hload := by
    obtain ⟨config, hconfig, rfl⟩ := Option.map_eq_some_iff.mp hload
    obtain ⟨hport, hctl, hrelays, hid, hrecords⟩ := htoml _ text config hsave hconfig
    have heffective : effectivePort config.port = s.daemon.network.port := by
      rw [hport]
      exact effectivePort_of_ne_zero hs.port
    simp only [Settings.bare, settings, start, Daemon.new, heffective, hctl, hrelays, hid,
      Settings.mk.injEq, true_and]
    exact ⟨rfl, rfl, rfl, funext hrecords⟩
  congr a b e h := by
    simp only [Settings.bare, Settings.announced, Settings.mk.injEq] at h ⊢
    obtain ⟨hport, hctl, hrelays, hid, hrecords⟩ := h
    refine ⟨hport, hctl, hrelays, hid, funext fun host => ?_⟩
    have hhost := congrFun hrecords host
    cases ha : e.announces pack host <;> simp [hhost]

end Uipd

variable {toml : Toml}

/-- A daemon with a generated configuration knows no peers and listens at the port chosen for
it. -/
theorem generated_settings (htoml : toml.Keeps) {id : Identity} {text : toml.Text} {s : Uipd tls}
    (hgenerated : generateConfiguration toml id = some text)
    (hload : (uipd tls pack toml).load text = some s) :
    s.id = id ∧ s.daemon.network.relays = [] ∧ s.daemon.network.port = 0xfe11 ∧
      ∀ host, s.daemon.network.pib.getPeer host = none := by
  obtain ⟨config, hconfig, rfl⟩ := Option.map_eq_some_iff.mp hload
  obtain ⟨hport, -, hrelays, hid, hrecords⟩ := htoml _ text config hgenerated hconfig
  refine ⟨hid, hrelays, congrArg Uipd.effectivePort hport, fun host => ?_⟩
  exact Option.map_eq_none_iff.mp (hrecords host)

instance : DecidableEq PeerInformationBase := fun a b =>
  decidable_of_iff (a.peers.entries = b.peers.entries) (by
    rw [← AList.ext_iff]
    exact ⟨fun h => congrArg PeerInformationBase.mk h, fun h => congrArg _ h⟩)

deriving instance DecidableEq for Configuration

namespace Toml

/-- Knows the listed configurations with their texts. -/
def ofTable (table : List (Configuration × Bytes)) : Toml where
  Text := Bytes
  toStringPretty config := (table.find? fun entry => entry.1 = config).map Prod.snd
  fromStr text := (table.find? fun entry => entry.2 = text).map Prod.fst

theorem ofTable_keeps {table : List (Configuration × Bytes)} (h : (table.map Prod.snd).Nodup) :
    (ofTable table).Keeps := by
  intro config text config' hwrite hread
  obtain ⟨⟨c, t⟩, hentry, rfl⟩ := Option.map_eq_some_iff.mp hwrite
  have hc : c = config := by simpa using List.find?_some hentry
  have hfound := find?_bytes h (List.mem_of_find?_eq_some hentry)
  have hconfig : c = config' := by simpa [ofTable, hfound] using hread
  subst hc hconfig
  exact ⟨rfl, rfl, rfl, rfl, fun _ => rfl⟩

def literal (text : Bytes) : Bytes := "'".toUTF8.toList ++ text ++ "'".toUTF8.toList

def literalLines (text : Bytes) : Bytes :=
  "'''\n".toUTF8.toList ++ text ++ "'''".toUTF8.toList

/-- An array of at most one text. -/
def array (texts : List Bytes) : Bytes :=
  "[".toUTF8.toList ++ texts.flatMap literal ++ "]".toUTF8.toList

def field (name : String) (value : Bytes) : Bytes :=
  (name ++ " = ").toUTF8.toList ++ value ++ "\n".toUTF8.toList

def record (host : Identifier) (peer : Peer) : Bytes :=
  "[pib.peers.".toUTF8.toList ++ host.display ++ "]\n".toUTF8.toList ++
    field "id" (literal peer.id.display) ++
    field "addresses" (array (peer.addresses.map addressText)) ++
    field "relays" (array (peer.relays.map Identifier.display))

/-- The text of a configuration that has a record, and at most one of what its arrays list. -/
def write (config : Configuration) : Bytes :=
  field "port" (toString config.port).toUTF8.toList ++
    field "ctl_socket" (literal config.ctlSocket) ++
    field "relays" (array (config.relays.map Identifier.display)) ++
    "\n[id]\n".toUTF8.toList ++
    field "identifier" (literal config.id.identifier.display) ++
    field "key" (literalLines config.id.key) ++
    field "cert" (literalLines config.id.cert) ++
    List.intercalate "\n".toUTF8.toList
      (config.pib.peers.entries.map fun entry => record entry.1 entry.2)

end Toml

section Written

def line (text : String) : Bytes := text.toUTF8.toList ++ "\n".toUTF8.toList

def pem (label : String) (lines : List String) : Bytes :=
  line ("-----BEGIN " ++ label ++ "-----") ++ lines.flatMap line ++
    line ("-----END " ++ label ++ "-----")

/-- The identifier is the digest of the key that the certificate bears. -/
def writtenIdentity : Identity where
  identifier := ⟨#v[0xa1, 0xe9, 0x15, 0x60, 0x54, 0xe0, 0x4f, 0xac, 0x89, 0x9a, 0xe9, 0xf2, 0x75,
    0x13, 0x2c, 0xdc, 0x07, 0xa5, 0xdb, 0xc4, 0xea, 0x2c, 0x2a, 0xd3, 0xa1, 0xff, 0xc6, 0xe0, 0xd2,
    0x53, 0x68, 0x1f]⟩
  key := pem "PRIVATE KEY" ["MC4CAQAwBQYDK2VwBCIEINTuctv5E1hK1bbY8fdp+K06/nwoy/HU++CXqI9EdVhC"]
  cert := pem "CERTIFICATE"
    ["MIIBUTCCAQMCFG/Gqe3jLdl/J3Af8fWPMeBu+bDpMAUGAytlcDBLMUkwRwYDVQQD",
      "DEBBMUU5MTU2MDU0RTA0RkFDODk5QUU5RjI3NTEzMkNEQzA3QTVEQkM0RUEyQzJB",
      "RDNBMUZGQzZFMEQyNTM2ODFGMB4XDTI2MTEyMDEyMDc1NVoXDTI4MTEwMTEyMDc1",
      "NVowSzFJMEcGA1UEAwxAQTFFOTE1NjA1NEUwNEZBQzg5OUFFOUYyNzUxMzJDREMw",
      "N0E1REJDNEVBMkMyQUQzQTFGRkM2RTBEMjUzNjgxRjAqMAUGAytlcAMhABm/RAlp",
      "hM3+hUG6wWfcO5bIUIaqMLa2ywxcOK1wMWbhMAUGAytlcANBADh/g3PQPIMeqp8Z",
      "g6DqQRJiohC30W1jlby020YTyhHhmwGQjpxuzTPSxKGmRw4QBqwfPuNHsf8VErap",
      "Hf5uYw4="]

def writtenConfiguration : Configuration :=
  ⟨0, "/run/user/1000/uip.sock".toUTF8.toList, [], writtenIdentity, waitingNetwork.pib⟩

/-- What is saved after `relayEvents`. -/
def savedConfiguration : Configuration :=
  { writtenConfiguration with
    port := 65041
    pib := waitingNetwork.pib.addPeer digestTwo ⟨digestTwo, [], [digestOne]⟩ }

def writtenToml : Toml :=
  .ofTable ([writtenConfiguration, savedConfiguration].map fun config => (config, Toml.write config))

theorem writtenToml_keeps : writtenToml.Keeps := Toml.ofTable_keeps (by decide +kernel)

end Written

def relayPack : MessagePack := .ofTable [writePeerInfo digestTwo [digestOne]]

def relayEvents : List (DaemonEvent keyTls) :=
  let info : Bytes := (writePeerInfo digestTwo [digestOne]).2
  connectingEvents ++ forwarded 2 floodAddr [23] 1 false ++
  [.socket 0 (.receive 1 ⟨2, floodAddr, [23]⟩ [.data 0 0 info]),
    .socket 0 (.connection 1 (.frame (.data 0 0 info))), .socket 0 (.deliver 1),
    .take 1 0 ⟨digestTwo, 0, 0, info⟩, .process 1 ⟨digestTwo, 0, 0, info⟩]

/-- One session that ends with the announcement and is saved, and a second one. -/
def restartEvents : List (Event (DaemonEvent keyTls) writtenToml.Text) :=
  [.replace (some (Toml.write writtenConfiguration)), .start] ++ relayEvents.map .step ++ [.stop, .start]

/-- Over all restarts a daemon opens a connection to a host only at the first address of a record
that this host has announced itself, or that was put into the file from outside. -/
theorem dials_announced_ever (htoml : toml.Keeps) (r : Run (uipd tls pack toml).machine)
    {before after : List (Transition _ (Event (DaemonEvent tls) toml.Text))}
    {x : Transition _ (Event (DaemonEvent tls) toml.Text)}
    (hrun : r.transitions = before ++ x :: after) {e : DaemonEvent tls} (he : x.label = .step e)
    {k : ℕ} {host : Identifier} {address : SocketAddrV6}
    (hdial : e.onSocket = some (k, .openConnection host address)) :
    ∃ entry config peer,
      (journal r.start (before.map Transition.label)).running = some entry ∧
      toml.fromStr entry.text = some config ∧
      entry.kept.Sublist (before.filterMap fun y => y.label.steps) ∧
      (entry.kept.filterMap (DaemonEvent.announces pack host)).getLast?.or
        (config.pib.getPeer host) = some peer ∧
      (peer.addresses.head?.map .bare) = some address.bare := by
  have hbefore := r.path.before hrun
  have hx := r.path.step_of_mem (x := x) (by simp [hrun])
  rw [he] at hx
  obtain ⟨t, hrunning, -⟩ := Option.map_eq_some_iff.mp hx
  obtain ⟨s, hs, hstep⟩ := Option.bind_eq_some_iff.mp hrunning
  obtain ⟨d, hd, -⟩ := Option.map_eq_some_iff.mp hstep
  obtain ⟨henabled, -⟩ := guarded_step.mp hd
  obtain ⟨known, hknown, hfirst⟩ := dial_address henabled hdial
  obtain ⟨-, entry, hentry, s₀, hload, hview⟩ :=
    (traced_of_path (Uipd.kept htoml) r.starts hbefore).running s hs
  obtain ⟨config, hconfig, rfl⟩ := Option.map_eq_some_iff.mp hload
  have hsteps := kept_sublist r.start _ (.inr hentry)
  rw [List.filterMap_map] at hsteps
  rw [Settings.announced_foldl] at hview
  have hhost := congrFun (congrArg Settings.records hview) host
  simp only [Settings.bare, Uipd.settings] at hhost
  rw [hknown] at hhost
  obtain ⟨peer, hpeer, hbare⟩ := Option.map_eq_some_iff.mp hhost.symm
  refine ⟨entry, config, peer, hentry, hconfig, hsteps, hpeer, ?_⟩
  have haddresses : peer.addresses.map SocketAddrV6.bare = known.addresses.map .bare :=
    congrArg Peer.addresses hbare
  rw [← List.head?_map, haddresses, List.head?_map, hfirst, Option.map_some]

/-- After a restart the daemon connects to a host at the address of the configuration. -/
theorem dials_announced_ever_restarted :
    ∃ r : Run (uipd keyTls relayPack writtenToml).machine, ∃ before after x,
      r.transitions = before ++ x :: after ∧ ∃ config : Configuration,
        ∃ kept : List (DaemonEvent keyTls), ∃ peer : Peer,
        (kept.filterMap (DaemonEvent.announces relayPack digestOne)).getLast?.or
          (config.pib.getPeer digestOne) = some peer ∧
        peer.addresses.head?.map .bare = some hostAddr.bare := by
  let dial : DaemonEvent keyTls := .choose 2 0 digestOne hostAddr (some (.data 5 6 []))
  obtain ⟨r, -, x, hx, hlabel, -⟩ := exec_visits (M := (uipd keyTls relayPack writtenToml).machine)
    (s := ⟨none, none⟩) rfl (restartEvents ++ (connectingEvents.take 3).map .step) (.step dial)
    (p := fun _ => true) (q := fun _ => true) (by decide +kernel)
  obtain ⟨before, after, hrun⟩ := List.append_of_mem hx
  obtain ⟨entry, config, peer, -, -, -, hpeer, haddress⟩ :=
    dials_announced_ever writtenToml_keeps r hrun hlabel
      (show dial.onSocket = some (0, .openConnection digestOne hostAddr) from rfl)
  exact ⟨r, before, after, x, hrun, config, entry.kept, peer, hpeer, haddress⟩

end Uip
