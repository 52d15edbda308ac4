import Sok.Dispatch
import Sok.Epoll.Listen
import Sok.Foundation.Transition

/-!
# Starting and restarting the children

`main` reads the ports from the configuration once, when it starts.  On `restart`
it ends the children, loads the configuration again and forks new children, which
see the new configuration but listen on the old ports.

So a child can listen on a port of which its configuration has no entry.  Then
`SiteInfo` ends with an empty root, and a path is looked up in the root of the
file system.  `KeepsPorts` is the condition that every configuration loaded by a
restart still has an entry for each of the old ports.
-/

namespace Sok.Server

/-! ## State -/

/-- A child process: the configuration it was forked with, and what its setup loop did. -/
structure Child where
  config : YamlReader
  passes : List SetupPass

structure State where
  /-- The configuration in `Config::instance()`. -/
  config : YamlReader
  /-- The ports, computed once. -/
  ports : List Port
  cpuCores : ℕ
  children : List Child

/-- The loop of `main` over the servers list. -/
def portsOf : List YamlReader → Except Bytes (List Port)
  | [] => .ok []
  | server :: rest => do
      let port ← server.getInt (ascii "port")
      let ports ← portsOf rest
      return port :: ports

/-- The ports of a configuration. -/
def serverPorts (config : YamlReader) : Except Bytes (List Port) := do
  let servers ← config.getArray (ascii "servers")
  portsOf servers

/-- The number of children: `cpu_cores` if it is positive, otherwise that of the hardware. -/
def coreCount (config : YamlReader) (hardware : ℕ) : Except Bytes ℕ := do
  let cores ← config.getInt (ascii "cpu_cores")
  return if 0 < cores then cores.toNat else hardware

/-- What the children of one start do: a fork can fail, and each child opens its
listening sockets port by port. -/
def Fit (ports : List Port) (cpuCores : ℕ) (setups : List (List SetupPass)) : Prop :=
  setups.length ≤ cpuCores ∧ ∀ passes ∈ setups, passes.map SetupPass.port <+: ports

instance (ports : List Port) (cpuCores : ℕ) (setups : List (List SetupPass)) :
    Decidable (Fit ports cpuCores setups) :=
  inferInstanceAs (Decidable (_ ∧ _))

/-- The children forked while `config` is loaded. -/
def forkAll (config : YamlReader) (setups : List (List SetupPass)) : List Child :=
  setups.map fun passes => ⟨config, passes⟩

/-- `main` up to its command loop. -/
def start (config : YamlReader) (hardware : ℕ) (setups : List (List SetupPass)) : Option State :=
  match serverPorts config, coreCount config hardware with
  | .ok ports, .ok cpuCores =>
      if Fit ports cpuCores setups then some ⟨config, ports, cpuCores, forkAll config setups⟩
      else none
  | _, _ => none

/-! ## Steps -/

inductive Action
  /-- `restart`, with the configuration that `load` reads. -/
  | restart (config : YamlReader) (setups : List (List SetupPass))
  /-- A child has ended; it is not replaced. -/
  | childEnds (index : ℕ)

def next (s : State) : Action → Option State
  | .restart config setups =>
      if Fit s.ports s.cpuCores setups then
        some { s with config := config, children := forkAll config setups }
      else none
  | .childEnds index => some { s with children := s.children.eraseIdx index }

/-- The server over all its restarts. -/
def system : Transition.System State Action where
  init s := ∃ config hardware setups, start config hardware setups = some s
  step := next

/-! ## The invariant -/

/-- An entry of the servers list of a configuration. -/
def IsServer (config : YamlReader) (server : YamlReader) : Prop :=
  ∃ servers, config.getArray (ascii "servers") = .ok servers ∧ server ∈ servers

/-- The configuration has an entry for the port. -/
def HasPort (config : YamlReader) (port : Port) : Prop :=
  ∃ server, IsServer config server ∧ server.getInt (ascii "port") = .ok port

/-- The children have the loaded configuration and the ports of the start, and
each of these has an entry. -/
structure Loaded (s : State) : Prop where
  child_config : ∀ child ∈ s.children, child.config = s.config
  child_ports : ∀ child ∈ s.children, ∀ pass ∈ child.passes, pass.port ∈ s.ports
  entry : ∀ port ∈ s.ports, HasPort s.config port

/-- Every configuration loaded by a restart has an entry for each port of the start. -/
def KeepsPorts (s : State) (a : Action) : Prop :=
  ∀ config setups, a = .restart config setups → ∀ port ∈ s.ports, HasPort config port

theorem mem_portsOf {servers : List YamlReader} {ports : List Port}
    (h : portsOf servers = .ok ports) {port : Port} (hport : port ∈ ports) :
    ∃ server ∈ servers, server.getInt (ascii "port") = .ok port := by
  induction servers generalizing ports with
  | nil =>
      obtain rfl := Except.ok.inj h
      exact absurd hport (by simp)
  | cons server rest ih =>
      rw [portsOf] at h
      obtain ⟨first, hfirst, h⟩ := exists_ok_of_bind h
      obtain ⟨others, hothers, h⟩ := exists_ok_of_bind h
      obtain rfl := Except.ok.inj h
      rcases List.mem_cons.mp hport with rfl | hport
      · exact ⟨server, by simp, hfirst⟩
      · obtain ⟨entry, hmem, hentry⟩ := ih hothers hport
        exact ⟨entry, by simp [hmem], hentry⟩

theorem hasPort_of_serverPorts {config : YamlReader} {ports : List Port}
    (h : serverPorts config = .ok ports) {port : Port} (hport : port ∈ ports) :
    HasPort config port := by
  rw [serverPorts] at h
  obtain ⟨servers, hservers, h⟩ := exists_ok_of_bind h
  obtain ⟨server, hmem, hentry⟩ := mem_portsOf h hport
  exact ⟨server, ⟨servers, hservers, hmem⟩, hentry⟩

theorem loaded_forkAll {config : YamlReader} {ports : List Port} {cpuCores : ℕ}
    {setups : List (List SetupPass)} (hfit : Fit ports cpuCores setups)
    (hentry : ∀ port ∈ ports, HasPort config port) :
    Loaded ⟨config, ports, cpuCores, forkAll config setups⟩ where
  child_config child hchild := by
    obtain ⟨passes, -, rfl⟩ := List.mem_map.mp hchild
    rfl
  child_ports child hchild pass hpass := by
    obtain ⟨passes, hpasses, rfl⟩ := List.mem_map.mp hchild
    exact (hfit.2 passes hpasses).subset (List.mem_map_of_mem hpass)
  entry := hentry

theorem loaded_of_start {config : YamlReader} {hardware : ℕ} {setups : List (List SetupPass)}
    {s : State} (h : start config hardware setups = some s) : Loaded s := by
  unfold start at h
  split at h
  · rename_i ports cpuCores hports _
    obtain ⟨hfit, heq⟩ := Option.ite_none_right_eq_some.mp h
    exact Option.some.inj heq ▸ loaded_forkAll hfit fun _ => hasPort_of_serverPorts hports
  · exact absurd h (by simp)

theorem Loaded.step {s result : State} {a : Action} (hguard : KeepsPorts s a)
    (hstep : next s a = some result) (hloaded : Loaded s) : Loaded result := by
  cases a with
  | restart config setups =>
      obtain ⟨hfit, heq⟩ := Option.ite_none_right_eq_some.mp hstep
      exact Option.some.inj heq ▸ loaded_forkAll hfit (hguard config setups rfl)
  | childEnds index =>
      obtain rfl := Option.some.inj hstep
      exact ⟨fun child hchild => hloaded.child_config child (List.mem_of_mem_eraseIdx hchild),
        fun child hchild => hloaded.child_ports child (List.mem_of_mem_eraseIdx hchild),
        hloaded.entry⟩

theorem reachable_loaded {s : State} (h : system.Reachable KeepsPorts s) : Loaded s :=
  h.invariant (fun _ ⟨_, _, _, hstart⟩ => loaded_of_start hstart) fun _ _ _ => Loaded.step

/-! ## What is served -/

/-- The port a socket is bound to: `htons` takes 16 bits of the number. -/
def tcpPort (port : Port) : Port :=
  port % 65536

/-- Every port a child listens on is that of an entry of the loaded servers list,
and every file looked up for a connection to it lies under the root of such an entry. -/
def ServesLoaded (s : State) : Prop :=
  ∀ child ∈ s.children, ∀ pass ∈ child.passes, pass.added = true →
    HasPort s.config (tcpPort pass.port) ∧
      ∀ env peeked hasEntry calls,
        ∀ file ∈ (dispatchProtocol child.config
            ((setupLoop child.passes).registry.getPort pass.fd) env peeked hasEntry calls).lookups,
          ∃ server rootDir path, IsServer s.config server ∧
            SiteInfo.IsEntry server (tcpPort pass.port) rootDir ∧
            file = requestedFile rootDir path

/-- A site found for a port that has an entry is such an entry. -/
theorem isEntry_of_ofPort {config : YamlReader} {port : Port} {site : SiteInfo}
    (hentry : HasPort config port) (hsite : SiteInfo.ofPort config port = .ok site) :
    ∃ server, IsServer config server ∧ SiteInfo.IsEntry server port site.rootDir := by
  obtain ⟨server, ⟨servers, hservers, hserver⟩, hport⟩ := hentry
  rw [SiteInfo.ofPort, hservers] at hsite
  rcases SiteInfo.search_cases hsite with ⟨entry, hmem, hentry⟩ | ⟨-, hnone⟩
  · exact ⟨entry, ⟨servers, hservers, hmem⟩, hentry⟩
  · exact absurd hport (hnone server hserver)

/-- **The served root belongs to the loaded configuration.**  In every run in which
each restart keeps an entry for the ports of the start, on ports that are TCP ports
and listening sockets that have their own numbers. -/
theorem served_root_loaded (s : State) (h : system.Reachable KeepsPorts s)
    (hports : ∀ port ∈ s.ports, 0 < port ∧ port < 65536)
    (hlisteners : ∀ child ∈ s.children, NoRecycledListener child.passes) : ServesLoaded s := by
  intro child hchild pass hpass hadded
  have hloaded := reachable_loaded h
  have hmem := hloaded.child_ports child hchild pass hpass
  obtain ⟨hpos, hlt⟩ := hports _ hmem
  have htcp : tcpPort pass.port = pass.port := Int.emod_eq_of_lt hpos.le hlt
  have hentry := hloaded.entry _ hmem
  rw [htcp, getPort_setupLoop (hlisteners child hchild) hpass hadded,
    hloaded.child_config child hchild]
  refine ⟨hentry, ?_⟩
  intro env peeked hasEntry calls file hfile
  obtain ⟨site, path, hsite, hpath⟩ := mem_lookups_dispatchProtocol hfile
  obtain ⟨server, hserver, hroot⟩ := isEntry_of_ofPort hentry hsite
  exact ⟨server, site.rootDir, path, hserver, hroot, hpath⟩

/-- The one child listens on port 8080, with socket 4. -/
def listening8080 : List (List SetupPass) :=
  [[⟨8080, 4, true⟩]]

/-- Started with port 8080 and restarted with `config`. -/
def restarted (config : YamlReader) : State :=
  ⟨config, [8080], 1, forkAll config listening8080⟩

theorem start_oneServer : start (oneServer 8080 (ascii "/srv/blog")) 4 listening8080 =
    some (restarted (oneServer 8080 (ascii "/srv/blog"))) := by
  rfl

theorem next_restart (config : YamlReader) :
    system.step (restarted (oneServer 8080 (ascii "/srv/blog"))) (.restart config listening8080) =
      some (restarted config) := by
  rfl

/-- What the calls return when a client asks for `/etc/passwd`. -/
def passwdCalls : Calls where
  recvs := [.data ⟨ascii "GET /etc/passwd HTTP/1.1\r\n\r\n", by decide, by decide⟩]
  writes := []
  tls := ⟨none, .want, [], []⟩

theorem passwd_lookup :
    ascii "/etc/passwd" ∈ (dispatchProtocol (oneServer 9090 (ascii "/srv/blog")) 8080 (.ofFiles [])
      (some (ascii "GET /etc/passwd ")) false passwdCalls).lookups := by
  decide +kernel

/-- After a restart that moves the site to another port, the child still listens
on the old one, and there it looks paths up in the root of the file system. -/
theorem file_system_root_served :
    ¬ ∀ s, system.Reachable Transition.anyStep s → ServesLoaded s := by
  intro h
  have hstart : system.Reachable Transition.anyStep
      (restarted (oneServer 8080 (ascii "/srv/blog"))) :=
    .initial ⟨_, _, _, start_oneServer⟩
  have hserves := h _ (hstart.step trivial (next_restart (oneServer 9090 (ascii "/srv/blog"))))
    ⟨_, [⟨8080, 4, true⟩]⟩ (List.mem_singleton.mpr rfl) ⟨8080, 4, true⟩ (by simp) rfl
  obtain ⟨server, rootDir, path, ⟨servers, hservers, hmem⟩, ⟨hport, -⟩, -⟩ :=
    hserves.2 _ _ _ _ _ passwd_lookup
  obtain rfl := Except.ok.inj hservers
  obtain rfl := List.mem_singleton.mp hmem
  exact absurd hport (by decide +kernel)

/-- A restart that moves the root. -/
theorem served_root_loaded_moved :
    ServesLoaded (restarted (oneServer 8080 (ascii "/srv/new"))) := by
  refine served_root_loaded _ ?_ (by decide) (by decide)
  refine .step (.initial ⟨_, _, _, start_oneServer⟩) (fun config setups heq port hport => ?_)
    (next_restart (oneServer 8080 (ascii "/srv/new")))
  obtain ⟨rfl, -⟩ := Action.restart.inj heq
  obtain rfl := List.mem_singleton.mp hport
  exact ⟨_, ⟨_, rfl, List.mem_singleton.mpr rfl⟩, rfl⟩

end Sok.Server
