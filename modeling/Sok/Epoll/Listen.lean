import Mathlib.Logic.Function.Basic
import Sok.Config.Site

/-!
# Listening sockets

`FdPortRegistry` and the setup loop of `processWorker`.  The loop registers the
port of a new listening socket before it adds the socket to epoll; when epoll
refuses the socket it is closed, but its entry stays, and the registry never
overwrites an entry.
-/

namespace Sok

/-- A file descriptor number. -/
abbrev Fd := ℕ

/-- The `fd_port` map of `FdPortRegistry`. -/
abbrev FdPortRegistry := Fd → Option Port

namespace FdPortRegistry

/-- `addFdPort`: an existing entry stays; the value returned tells whether the
entry was added. -/
def addFdPort (registry : FdPortRegistry) (fd : Fd) (port : Port) : FdPortRegistry × Bool :=
  match registry fd with
  | some _ => (registry, false)
  | none => (Function.update registry fd (some port), true)

/-- `getPort`: -1 when the fd has no entry. -/
def getPort (registry : FdPortRegistry) (fd : Fd) : Port :=
  (registry fd).getD (-1)

end FdPortRegistry

/-- One pass of the setup loop: the port, the number `setup_server` returned for
it, and whether `epoll_ctl` took the socket. -/
structure SetupPass where
  port : Port
  fd : Fd
  added : Bool
  deriving DecidableEq, Repr

/-- What the setup loop builds. -/
structure Listening where
  registry : FdPortRegistry
  serverFds : List Fd

/-- The body of the setup loop; the value of `addFdPort` is ignored. -/
def Listening.pass (listening : Listening) (pass : SetupPass) : Listening where
  registry := (listening.registry.addFdPort pass.fd pass.port).1
  serverFds := if pass.added then listening.serverFds ++ [pass.fd] else listening.serverFds

/-- The setup loop of `processWorker`. -/
def setupLoop (passes : List SetupPass) : Listening :=
  passes.foldl Listening.pass ⟨fun _ => none, []⟩

theorem foldl_pass_registry (passes : List SetupPass) (listening : Listening) (fd : Fd) :
    (passes.foldl Listening.pass listening).registry fd =
      (listening.registry fd).or ((passes.find? (·.fd == fd)).map SetupPass.port) := by
  induction passes generalizing listening with
  | nil => simp
  | cons pass passes ih =>
      rw [List.foldl_cons, ih]
      by_cases hfd : pass.fd = fd
      · subst hfd
        cases hreg : listening.registry pass.fd <;>
          simp [Listening.pass, FdPortRegistry.addFdPort, hreg]
      · cases hreg : listening.registry pass.fd <;>
          simp [Listening.pass, FdPortRegistry.addFdPort, hreg, Ne.symm hfd, hfd]

/-- The registry holds the port of the first socket that got the number. -/
theorem setupLoop_registry (passes : List SetupPass) (fd : Fd) :
    (setupLoop passes).registry fd = (passes.find? (·.fd == fd)).map SetupPass.port := by
  rw [setupLoop, foldl_pass_registry, Option.none_or]

theorem foldl_pass_serverFds (passes : List SetupPass) (listening : Listening) :
    (passes.foldl Listening.pass listening).serverFds =
      listening.serverFds ++ (passes.filter SetupPass.added).map SetupPass.fd := by
  induction passes generalizing listening with
  | nil => simp
  | cons pass passes ih =>
      rw [List.foldl_cons, ih]
      cases hadded : pass.added <;> simp [Listening.pass, hadded]

theorem setupLoop_serverFds (passes : List SetupPass) :
    (setupLoop passes).serverFds = (passes.filter SetupPass.added).map SetupPass.fd := by
  rw [setupLoop, foldl_pass_serverFds, List.nil_append]

/-- No listening socket has the number of an earlier socket for another port
(which epoll refused and which was closed). -/
def NoRecycledListener (passes : List SetupPass) : Prop :=
  ∀ pass ∈ passes, pass.added = true →
    (passes.find? (·.fd == pass.fd)).map SetupPass.port = some pass.port

instance (passes : List SetupPass) : Decidable (NoRecycledListener passes) :=
  inferInstanceAs (Decidable (∀ pass ∈ passes, _))

theorem getPort_setupLoop {passes : List SetupPass} (h : NoRecycledListener passes)
    {pass : SetupPass} (hpass : pass ∈ passes) (hadded : pass.added = true) :
    (setupLoop passes).registry.getPort pass.fd = pass.port := by
  rw [FdPortRegistry.getPort, setupLoop_registry, h pass hpass hadded, Option.getD_some]

end Sok
