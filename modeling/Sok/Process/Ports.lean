import Sok.Config.Load
import Sok.Process.Restart

/-!
# The ports that are bound

`setup_server` and the setup loop of `processWorker`, with the ports the kernel binds.
The configured port is an `int`.  `htons` narrows it to 16 bits, and nobody checks its
range, so a number beyond 65535 binds its remainder modulo 65536, and for a
remainder of 0 the kernel chooses a port.  As every listening socket has
`SO_REUSEPORT`, a second socket on a bound port is no error, while the registry and the
log go on naming the configured number.
-/

namespace Sok.Server

open Yaml (parseFile)

/-! ## Addresses -/

/-- `sin_port`: the high byte comes first. -/
structure SinPort where
  high : UInt8
  low : UInt8
  deriving DecidableEq

/-- `htons(port)`: the `int` is narrowed to 16 bits. -/
def htons (port : Port) : SinPort where
  high := UInt8.ofNat ((port % 65536).toNat / 256)
  low := UInt8.ofNat ((port % 65536).toNat % 256)

/-- The number that the kernel reads. -/
def SinPort.number (address : SinPort) : ℕ :=
  address.high.toNat * 256 + address.low.toNat

/-- A port that a socket can be bound to. -/
structure TcpPort where
  number : ℕ
  inRange : 0 < number ∧ number < 65536
  deriving DecidableEq

theorem SinPort.number_lt (address : SinPort) : address.number < 65536 := by
  have hhigh := address.high.toNat_lt
  have hlow := address.low.toNat_lt
  rw [SinPort.number]
  omega

theorem number_htons (port : Port) : (htons port).number = (port % 65536).toNat := by
  have hlt : (port % 65536).toNat < 65536 := by omega
  rw [SinPort.number, htons, UInt8.toNat_ofNat', UInt8.toNat_ofNat']
  omega

/-- The port that `bind` binds: asked for port 0, the kernel takes one of its choice. -/
def bind (address : SinPort) (free : TcpPort) : TcpPort :=
  if h : 0 < address.number then ⟨address.number, h, address.number_lt⟩ else free

/-! ## setup_server -/

/-- What the calls of `setup_server` return, as far as it tells the results apart. -/
structure SetupCalls where
  /-- `socket`. -/
  socket : Option Fd
  /-- `fcntl(F_GETFL)`. -/
  getFlags : Bool
  /-- `fcntl(F_SETFL, flags | O_NONBLOCK)`. -/
  setFlags : Bool
  /-- `setsockopt(SO_REUSEADDR)`. -/
  reuseAddr : Bool
  /-- `setsockopt(SO_REUSEPORT)`. -/
  reusePort : Bool
  /-- `bind`, with the port that the kernel would choose. -/
  bind : Option TcpPort
  /-- `listen`. -/
  listen : Bool

/-- An exception of `setup_server`. -/
structure SetupError where
  what : Bytes
  /-- The socket that was closed before it was thrown. -/
  closed : Option Fd
  deriving DecidableEq

/-- A listening socket. -/
structure ServerSocket where
  fd : Fd
  bound : TcpPort
  deriving DecidableEq

/-- `setup_server(port)`. -/
def setupServer (port : Port) (calls : SetupCalls) : Except SetupError ServerSocket :=
  match calls.socket with
  | none => .error ⟨ascii "Failed to create socket", none⟩
  | some fd =>
      if !calls.getFlags || !calls.setFlags then
        .error ⟨ascii "Failed to set server socket non-blocking", some fd⟩
      else if !calls.reuseAddr then .error ⟨ascii "Failed to set SO_REUSEADDR", some fd⟩
      else if !calls.reusePort then .error ⟨ascii "Failed to set SO_REUSEPORT", some fd⟩
      else match calls.bind with
        | none => .error ⟨ascii "Failed to bind socket", some fd⟩
        | some free =>
            if !calls.listen then .error ⟨ascii "Failed to listen on socket", some fd⟩
            else .ok ⟨fd, bind (htons port) free⟩

theorem ok_of_ite_error {ε α : Type} {c : Prop} [Decidable c] {error : ε} {rest : Except ε α}
    {value : α} (h : (if c then .error error else rest) = .ok value) : rest = .ok value := by
  by_cases hc : c
  · rw [if_pos hc] at h
    exact absurd h (by simp)
  · rwa [if_neg hc] at h

/-- A socket that is returned is bound to the number `htons` leaves of the port. -/
theorem bound_of_setupServer {port : Port} {calls : SetupCalls} {socket : ServerSocket}
    (h : setupServer port calls = .ok socket) : ∃ free, socket.bound = bind (htons port) free := by
  unfold setupServer at h
  split at h
  · exact absurd h (by simp)
  · have hbind := ok_of_ite_error (ok_of_ite_error (ok_of_ite_error h))
    split at hbind
    · exact absurd hbind (by simp)
    · rename_i free hfree
      have hsocket := Except.ok.inj (ok_of_ite_error hbind)
      exact ⟨free, (congrArg ServerSocket.bound hsocket).symm⟩

/-! ## The setup loop -/

/-- A pass of the loop that has got its socket. -/
structure Opened where
  pass : SetupPass
  bound : TcpPort
  deriving DecidableEq

/-- The sockets that the setup loop of `processWorker` gets, and the exception that ends it.  The
answers are those of the calls of `setup_server` and of `epoll_ctl`, pass by pass; while there are
none for a port, the loop is still at it. -/
def openPorts : List Port → List (SetupCalls × Bool) → List Opened × Option SetupError
  | [], _ => ([], none)
  | _ :: _, [] => ([], none)
  | port :: ports, (calls, added) :: answers =>
      match setupServer port calls with
      | .error error => ([], some error)
      | .ok socket =>
          let (opened, error) := openPorts ports answers
          (⟨⟨port, socket.fd, added⟩, socket.bound⟩ :: opened, error)

theorem openPorts_cons_ok {port : Port} {ports : List Port} {calls : SetupCalls} {added : Bool}
    {answers : List (SetupCalls × Bool)} {socket : ServerSocket}
    (h : setupServer port calls = .ok socket) :
    openPorts (port :: ports) ((calls, added) :: answers) =
      (⟨⟨port, socket.fd, added⟩, socket.bound⟩ :: (openPorts ports answers).1,
        (openPorts ports answers).2) := by
  simp only [openPorts, h]

theorem openPorts_cons_error {port : Port} {ports : List Port} {calls : SetupCalls} {added : Bool}
    {answers : List (SetupCalls × Bool)} {error : SetupError}
    (h : setupServer port calls = .error error) :
    openPorts (port :: ports) ((calls, added) :: answers) = ([], some error) := by
  simp only [openPorts, h]

theorem passes_openPorts (ports : List Port) (answers : List (SetupCalls × Bool)) :
    ((openPorts ports answers).1.map Opened.pass).map SetupPass.port <+: ports := by
  induction ports generalizing answers with
  | nil => exact List.nil_prefix
  | cons port ports ih =>
      cases answers with
      | nil => exact List.nil_prefix
      | cons answer answers =>
          obtain ⟨calls, added⟩ := answer
          cases hsetup : setupServer port calls with
          | error error =>
              rw [openPorts_cons_error hsetup]
              exact List.nil_prefix
          | ok socket =>
              rw [openPorts_cons_ok hsetup]
              exact List.cons_prefix_cons.mpr ⟨rfl, ih answers⟩

/-- So the children of a start can be those whose setup loops run like this. -/
theorem fit_openPorts {ports : List Port} {cpuCores : ℕ}
    {answers : List (List (SetupCalls × Bool))} (h : answers.length ≤ cpuCores) :
    Fit ports cpuCores
      (answers.map fun answers => (openPorts ports answers).1.map Opened.pass) := by
  refine ⟨by rwa [List.length_map], fun passes hpasses => ?_⟩
  obtain ⟨answers, -, rfl⟩ := List.mem_map.mp hpasses
  exact passes_openPorts ports answers

/-- Each socket is bound to what `bind` makes of its port. -/
theorem bound_openPorts {ports : List Port} {answers : List (SetupCalls × Bool)} {opened : Opened}
    (h : opened ∈ (openPorts ports answers).1) :
    opened.pass.port ∈ ports ∧ ∃ free, opened.bound = bind (htons opened.pass.port) free := by
  refine ⟨(passes_openPorts ports answers).subset
    (List.mem_map_of_mem (List.mem_map_of_mem h)), ?_⟩
  induction ports generalizing answers with
  | nil => exact absurd h (by simp [openPorts])
  | cons port ports ih =>
      cases answers with
      | nil => exact absurd h (by simp [openPorts])
      | cons answer answers =>
          obtain ⟨calls, added⟩ := answer
          cases hsetup : setupServer port calls with
          | error error =>
              rw [openPorts_cons_error hsetup] at h
              exact absurd h (by simp)
          | ok socket =>
              rw [openPorts_cons_ok hsetup] at h
              rcases List.mem_cons.mp h with rfl | h
              · exact bound_of_setupServer hsetup
              · exact ih h

/-! ## When nothing fails -/

/-- Calls that all succeed, with the numbers from `fd` on. -/
def succeeding (free : TcpPort) : Fd → List Port → List (SetupCalls × Bool)
  | _, [] => []
  | fd, _ :: ports =>
      (⟨some fd, true, true, true, true, some free, true⟩, true) :: succeeding free (fd + 1) ports

theorem openPorts_succeeding (free : TcpPort) (fd : Fd) (ports : List Port) :
    ((openPorts ports (succeeding free fd ports)).1.map fun opened =>
        (opened.pass.port, opened.bound)) =
      ports.map (fun port => (port, bind (htons port) free)) ∧
      (openPorts ports (succeeding free fd ports)).2 = none := by
  induction ports generalizing fd with
  | nil => exact ⟨rfl, rfl⟩
  | cons port ports ih =>
      obtain ⟨hopened, herror⟩ := ih (fd + 1)
      have hsetup : setupServer port ⟨some fd, true, true, true, true, some free, true⟩ =
          .ok ⟨fd, bind (htons port) free⟩ := rfl
      rw [succeeding, openPorts_cons_ok hsetup]
      exact ⟨by rw [List.map_cons, hopened, List.map_cons], herror⟩

/-! ## Configured and bound -/

/-- Every socket is bound to the port that is configured for it, sockets of different configured
ports, whichever children they belong to, to different ports; and where that cannot be, the loop
ends with an exception once its calls have been answered. -/
structure PortsBound (ports : List Port) : Prop where
  bound : ∀ answers, ∀ opened ∈ (openPorts ports answers).1,
    (opened.bound.number : ℤ) = opened.pass.port
  apart : ∀ answers answers', ∀ opened ∈ (openPorts ports answers).1,
    ∀ opened' ∈ (openPorts ports answers').1, opened.pass.port ≠ opened'.pass.port →
      opened.bound ≠ opened'.bound
  rejected : (∃ port ∈ ports, ¬ ∃ tcp : TcpPort, (tcp.number : ℤ) = port) →
    ∀ answers, ports.length ≤ answers.length → (openPorts ports answers).2.isSome

/-- The numbers of TCP ports. -/
def IsTcp (port : ℤ) : Prop :=
  0 < port ∧ port < 65536

theorem isTcp_iff {port : ℤ} : IsTcp port ↔ ∃ tcp : TcpPort, (tcp.number : ℤ) = port := by
  constructor
  · intro h
    obtain ⟨hpos, hlt⟩ := h
    exact ⟨⟨port.toNat, by omega, by omega⟩, Int.toNat_of_nonneg hpos.le⟩
  · intro h
    obtain ⟨tcp, rfl⟩ := h
    obtain ⟨hpos, hlt⟩ := tcp.inRange
    exact ⟨by omega, by omega⟩

/-- What is bound is the remainder, unless that is 0. -/
theorem number_bind_of_ne {port : ℤ} (h : tcpPort port ≠ 0) (free : TcpPort) :
    ((bind (htons port) free).number : ℤ) = tcpPort port := by
  have hremainder : port % 65536 ≠ 0 := h
  have hnumber := number_htons port
  have hnonzero : 0 < (htons port).number := by omega
  rw [bind, dif_pos hnonzero, tcpPort]
  show ((htons port).number : ℤ) = port % 65536
  omega

/-- A TCP port goes through `htons` unchanged. -/
theorem number_bind {port : ℤ} (h : IsTcp port) (free : TcpPort) :
    ((bind (htons port) free).number : ℤ) = port := by
  have htcp : tcpPort port = port := Int.emod_eq_of_lt h.1.le h.2
  rw [number_bind_of_ne (by rw [htcp]; exact h.1.ne') free, htcp]

theorem portsBound_of_isTcp {ports : List Port} (h : ∀ port ∈ ports, IsTcp port) :
    PortsBound ports where
  bound answers opened hopened := by
    obtain ⟨hmem, free, hbound⟩ := bound_openPorts hopened
    rw [hbound, number_bind (h _ hmem)]
  apart answers answers' opened hopened opened' hopened' hne hsame := by
    obtain ⟨hmem, free, hbound⟩ := bound_openPorts hopened
    obtain ⟨hmem', free', hbound'⟩ := bound_openPorts hopened'
    apply hne
    rw [← number_bind (h _ hmem) free, ← number_bind (h _ hmem') free', ← hbound, ← hbound', hsame]
  rejected hnone := by
    obtain ⟨port, hport, hnot⟩ := hnone
    exact absurd (isTcp_iff.mp (h port hport)) hnot

/-- The first port of the kernel's choice. -/
def ephemeral : TcpPort := ⟨32768, by decide⟩

/-- When nothing fails, a number that is not that of a TCP port has a socket all the same. -/
theorem not_portsBound {ports : List Port} {port : Port} (hport : port ∈ ports)
    (hnot : ¬ IsTcp port) : ¬ PortsBound ports := by
  intro hports
  obtain ⟨hopened, -⟩ := openPorts_succeeding ephemeral 4 ports
  have hpair := List.mem_map_of_mem (f := fun port => (port, bind (htons port) ephemeral)) hport
  rw [← hopened] at hpair
  obtain ⟨opened, hmem, heq⟩ := List.mem_map.mp hpair
  obtain ⟨rfl, -⟩ := Prod.mk.inj heq
  exact hnot (isTcp_iff.mpr ⟨opened.bound, hports.bound _ opened hmem⟩)

theorem portsBound_iff (ports : List Port) : PortsBound ports ↔ ∀ port ∈ ports, IsTcp port := by
  refine ⟨fun hports port hport => ?_, portsBound_of_isTcp⟩
  by_contra hnot
  exact not_portsBound hport hnot hports

/-! ## Configurations -/

/-- The ports of a configuration file are the ports that are bound. -/
def ConfiguredPortsBound (text : Bytes) : Prop :=
  ∀ config ports, parseFile (some text) = .ok config → serverPorts config = .ok ports →
    PortsBound ports

/-- **The configured ports are bound exactly when they are TCP ports.** -/
theorem configuredPortsBound_iff (text : Bytes) :
    ConfiguredPortsBound text ↔
      ∀ config ports, parseFile (some text) = .ok config → serverPorts config = .ok ports →
        ∀ port ∈ ports, 0 < port ∧ port < 65536 :=
  forall_congr' fun _ => forall_congr' fun ports => imp_congr_right fun _ =>
    imp_congr_right fun _ => portsBound_iff ports

/-- Two sites, on 8080 and on 8080 + 65536. -/
def wrappedPorts : Bytes :=
  ascii ("cpu_cores: 1\nservers:\n  - name: blog\n    port: 8080\n    root: /srv/blog\n" ++
    "  - name: shop\n    port: 73616\n    root: /srv/shop\n")

theorem serverPorts_wrappedPorts :
    ∃ config, parseFile (some wrappedPorts) = .ok config ∧
      serverPorts config = .ok [8080, 73616] := by
  have hports : (parseFile (some wrappedPorts)).toOption.map serverPorts =
      some (.ok [8080, 73616]) := by
    decide +kernel
  cases hparse : parseFile (some wrappedPorts) with
  | error failure =>
      rw [hparse] at hports
      exact absurd hports (by simp [Except.toOption])
  | ok config =>
      rw [hparse] at hports
      exact ⟨config, rfl, Option.some.inj hports⟩

/-- The sockets of both sites are bound to 8080. -/
theorem wrapped_ports_collide : ¬ ∀ text, ConfiguredPortsBound text := by
  intro hall
  obtain ⟨config, hparse, hports⟩ := serverPorts_wrappedPorts
  have hbound := hall wrappedPorts config _ hparse hports
  have hapart := hbound.apart (succeeding ephemeral 4 [8080, 73616])
    (succeeding ephemeral 4 [8080, 73616])
    ⟨⟨8080, 4, true⟩, ⟨8080, by decide⟩⟩ (by decide)
    ⟨⟨73616, 5, true⟩, ⟨8080, by decide⟩⟩ (by decide) (by decide)
  exact hapart rfl

end Sok.Server
