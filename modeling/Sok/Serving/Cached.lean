import Sok.Cache.Transparency
import Sok.Foundation.Simulation
import Sok.Handler

/-!
# What the cache changes for a client

A server answers requests of both protocols, one after another, while its files change between
them.  The cached server looks every file up in its `FileCache`, the plain server has no cache and
reads the file itself.  As long as the times of cached files never go back, the run of the cached
server is, but for the cache, a run of the plain server: every handler reads, decides, writes and
returns the same.
-/

namespace Sok.Serving

open FileCache (Disk DiskFile UpToDate)

/-! ## The plain server -/

/-- What `open` finds of a regular file. -/
def openOn (disk : Disk) (path : Bytes) : Option Bytes :=
  (disk path).bind fun file => if file.readable then some file.bytes else none

/-- Files without a cache. -/
def plainEnv (disk : Disk) : Env where
  get := disk.current
  openFile := openOn disk
  get_nonempty path content mime h := by
    unfold FileCache.Disk.current at h
    split at h
    · exact absurd h (by simp)
    · split at h
      · exact absurd h (by simp)
      · next hfile =>
          obtain ⟨rfl, -⟩ := CacheAnswer.found.inj h
          exact (not_or.mp hfile).2
  get_mime path content mime h := by
    unfold FileCache.Disk.current at h
    split at h
    · exact absurd h (by simp)
    · split at h
      · exact absurd h (by simp)
      · exact (CacheAnswer.found.inj h).2.symm

/-- One call of a handler, as it is seen from outside the server. -/
inductive Served
  | http (run : HandlerRun RecvStop)
  | https (run : HttpsUtil.HttpsRun)

/-- What happens to a server: a call of a handler with the results of its system calls, a new limit
of the cache, or a change of a file. -/
inductive Event
  | http (site : SiteInfo) (recvs : List RecvResult) (writes : List WriteResult)
  | https (site : SiteInfo) (hasEntry : Bool) (results : HttpsUtil.TlsResults)
  | setMaxSize (maxSize : ℕ)
  | change (path : Bytes) (file : Option DiskFile)

/-- A server that reads its files for every request. -/
structure PlainServer where
  disk : Disk
  served : List Served

/-- Runs of the plain server; it has no limit to set. -/
def plainSystem : Transition.System PlainServer Event where
  init server := server.served = []
  step server
    | .http site recvs writes =>
        let run := HttpUtil.handleHttp (plainEnv server.disk) site recvs writes
        some { server with served := server.served ++ [.http run] }
    | .https site hasEntry results =>
        let run := HttpsUtil.handleHttps (plainEnv server.disk) site hasEntry results
        some { server with served := server.served ++ [.https run] }
    | .setMaxSize _ => some server
    | .change path file => some { server with disk := Function.update server.disk path file }

/-! ## The cached server -/

/-- A server with its cache. -/
structure CachedServer where
  cache : FileCache
  linked : cache.Linked
  disk : Disk
  served : List Served

namespace CachedServer

/-- The files through the cache; memory for a loaded file can be had. -/
def env (server : CachedServer) : Env :=
  .ofCache server.cache server.linked (fun path => server.disk.calls path true) (openOn server.disk)

/-- What a handler leaves in the cache: each lookup is one `get`. -/
def look (server : CachedServer) (path : Bytes) : CachedServer :=
  match hget : server.cache.get path (server.disk.calls path true) with
  | none => server
  | some (next, _) =>
      { server with
        cache := next
        linked := server.linked.of_got (server.linked.got_of_get hget) }

/-- The lookups of a handler, and what it was seen to do. -/
def record (server : CachedServer) (lookups : List Bytes) (served : Served) : CachedServer :=
  let looked := lookups.foldl look server
  { looked with served := looked.served ++ [served] }

/-- `set_max_size`. -/
def limit (server : CachedServer) (maxSize : ℕ) : CachedServer :=
  match hset : server.cache.setMaxSize maxSize with
  | none => server
  | some next =>
      { server with
        cache := next
        linked := by
          obtain ⟨after, heq, hevicted⟩ := server.linked.setMaxSize maxSize
          obtain rfl : after = next := Option.some.inj (heq.symm.trans hset)
          exact hevicted.linked }

/-- The server without its cache. -/
def plain (server : CachedServer) : PlainServer :=
  ⟨server.disk, server.served⟩

end CachedServer

/-- Runs of the cached server. -/
def cachedSystem : Transition.System CachedServer Event where
  init server := (∃ maxSize, server.cache = FileCache.new maxSize) ∧ server.served = []
  step server
    | .http site recvs writes =>
        let run := HttpUtil.handleHttp server.env site recvs writes
        some (server.record run.lookups (.http run))
    | .https site hasEntry results =>
        let run := HttpsUtil.handleHttps server.env site hasEntry results
        some (server.record run.run.lookups (.https run))
    | .setMaxSize maxSize => some (server.limit maxSize)
    | .change path file => some { server with disk := Function.update server.disk path file }

/-- No cached file is removed or made unreadable, and the time of a cached file goes forward when
its bytes change and never goes back. -/
def NeverBack (server : CachedServer) : Event → Prop
  | .change path file => FileCache.NeverBack ⟨server.cache, server.disk⟩ (.change path file)
  | _ => True

instance (server : CachedServer) : ∀ event, Decidable (NeverBack server event)
  | .change path file =>
      inferInstanceAs (Decidable (FileCache.NeverBack ⟨server.cache, server.disk⟩
        (.change path file)))
  | .http _ _ _ => inferInstanceAs (Decidable True)
  | .https _ _ _ => inferInstanceAs (Decidable True)
  | .setMaxSize _ => inferInstanceAs (Decidable True)

/-! ## The simulation -/

section

variable {server : CachedServer} {path : Bytes}

/-- The entries of the cache are up to date with the files of the server. -/
def Current (server : CachedServer) : Prop :=
  UpToDate ⟨server.cache, server.disk⟩

/-- Through a cache that is up to date the files are seen as they are. -/
theorem Current.env_eq (h : Current server) : server.env = plainEnv server.disk := by
  have hget : ∀ path, (server.cache.get path (server.disk.calls path true)).elim .throws Prod.snd =
      server.disk.current path := by
    intro path
    obtain ⟨next, hnext⟩ := h.transparent path
    show (server.cache.get path (server.disk.calls path true)).elim .throws Prod.snd = _
    rw [hnext, Option.elim_some]
  unfold CachedServer.env Env.ofCache plainEnv
  simp only [hget]

theorem look_disk (server : CachedServer) (path : Bytes) :
    (server.look path).disk = server.disk ∧ (server.look path).served = server.served := by
  unfold CachedServer.look
  split <;> exact ⟨rfl, rfl⟩

theorem Current.look (h : Current server) (path : Bytes) : Current (server.look path) := by
  unfold CachedServer.look
  split
  · exact h
  · next next answer hget =>
      have hop : FileCache.NeverBack ⟨server.cache, server.disk⟩ (.get path true) := trivial
      exact h.step hop (Option.map_eq_some_iff.mpr ⟨(next, answer), hget, rfl⟩)

theorem Current.looks (h : Current server) (lookups : List Bytes) :
    Current (lookups.foldl CachedServer.look server) ∧
      (lookups.foldl CachedServer.look server).plain = server.plain := by
  induction lookups generalizing server with
  | nil => exact ⟨h, rfl⟩
  | cons path lookups ih =>
      obtain ⟨hcurrent, hplain⟩ := ih (h.look path)
      obtain ⟨hdisk, hserved⟩ := look_disk server path
      refine ⟨hcurrent, hplain.trans ?_⟩
      unfold CachedServer.plain
      rw [hdisk, hserved]

/-- A handler that has run leaves the cache up to date and the files alone. -/
theorem Current.record (h : Current server) (lookups : List Bytes) (served : Served) :
    Current (server.record lookups served) ∧
      (server.record lookups served).plain =
        { server.plain with served := server.served ++ [served] } := by
  obtain ⟨hcurrent, hplain⟩ := h.looks lookups
  obtain ⟨hdisk, hserved⟩ := PlainServer.mk.inj hplain
  refine ⟨hcurrent, ?_⟩
  unfold CachedServer.record CachedServer.plain
  dsimp only
  rw [hdisk, hserved]

theorem Current.limit (h : Current server) (maxSize : ℕ) :
    Current (server.limit maxSize) ∧ (server.limit maxSize).plain = server.plain := by
  unfold CachedServer.limit
  split
  · exact ⟨h, rfl⟩
  · next next hset =>
      have hop : FileCache.NeverBack ⟨server.cache, server.disk⟩ (.setMaxSize maxSize) := trivial
      exact ⟨h.step hop (Option.map_eq_some_iff.mpr ⟨next, hset, rfl⟩), rfl⟩

/-- A step of the cached server is a step of the plain one. -/
theorem Current.step (h : Current server) {event : Event} (hback : NeverBack server event)
    {next : CachedServer} (hstep : cachedSystem.step server event = some next) :
    Current next ∧ plainSystem.step server.plain event = some next.plain := by
  cases event with
  | http site recvs writes =>
      obtain rfl := Option.some.inj hstep
      obtain ⟨hcurrent, hplain⟩ := h.record
        (HttpUtil.handleHttp server.env site recvs writes).lookups
        (.http (HttpUtil.handleHttp server.env site recvs writes))
      refine ⟨hcurrent, ?_⟩
      rw [hplain, h.env_eq]
      rfl
  | https site hasEntry results =>
      obtain rfl := Option.some.inj hstep
      obtain ⟨hcurrent, hplain⟩ := h.record
        (HttpsUtil.handleHttps server.env site hasEntry results).run.lookups
        (.https (HttpsUtil.handleHttps server.env site hasEntry results))
      refine ⟨hcurrent, ?_⟩
      rw [hplain, h.env_eq]
      rfl
  | setMaxSize maxSize =>
      obtain rfl := Option.some.inj hstep
      obtain ⟨hcurrent, hplain⟩ := h.limit maxSize
      exact ⟨hcurrent, congrArg some hplain.symm⟩
  | change path file =>
      obtain rfl := Option.some.inj hstep
      exact ⟨h.change hback, rfl⟩

theorem current_of_init (h : cachedSystem.init server) : Current server := by
  obtain ⟨⟨maxSize, hnew⟩, -⟩ := h
  refine ⟨server.linked, fun path file hfile => ?_⟩
  have hfile : server.cache.contents path = some file := hfile
  rw [hnew] at hfile
  exact absurd hfile (by simp [FileCache.contents, FileCache.new])

theorem current_of_reachable (h : cachedSystem.Reachable NeverBack server) : Current server := by
  refine @Transition.System.Reachable.invariant _ _ cachedSystem NeverBack Current ?_ ?_ _ h
  · exact fun start hinit => current_of_init hinit
  · exact fun state event next hback hstep hcurrent => (hcurrent.step hback hstep).1

end

/-- The cached server refines the plain one: for every sequence of requests, limits and changes of
the files that never take a time back, the handlers do the same with the cache and without. -/
theorem cached_refines_plain {server final : CachedServer} (hinit : cachedSystem.init server)
    {events : List Event} (hpermits : cachedSystem.Permits NeverBack server events)
    (hexec : cachedSystem.exec server events = some final) :
    plainSystem.exec server.plain events = some final.plain := by
  have hrun : cachedSystem.Run NeverBack server events final := ⟨hpermits, hexec⟩
  have hsim : Current final ∧ plainSystem.Run Transition.anyStep server.plain (events.map id)
      final.plain := by
    refine hrun.simulates (fun state event next hcurrent hback hstep => ?_)
      (current_of_init hinit)
    obtain ⟨hnext, hplain⟩ := Current.step hcurrent hback hstep
    exact ⟨hnext, trivial, hplain⟩
  rw [List.map_id] at hsim
  exact hsim.2.exec

/-- One page that is asked for, written again and asked for again. -/
def edited : List Event :=
  [.http shop [.data ⟨ascii "GET / HTTP/1.0\r\n\r\n", by decide, by decide⟩] [.full, .full],
    .change (ascii "/srv/index.html") (some ⟨ascii "new", 101, true⟩),
    .http shop [.data ⟨ascii "GET / HTTP/1.0\r\n\r\n", by decide, by decide⟩] [.full, .full]]

/-- A cached server at its start. -/
def fresh (disk : Disk) : CachedServer :=
  ⟨FileCache.new 100, FileCache.linked_new 100, disk, []⟩

theorem cached_refines_plain_edited :
    ∃ final, cachedSystem.exec (fresh fun _ => some ⟨ascii "old", 100, true⟩) edited = some final ∧
      plainSystem.exec (fresh fun _ => some ⟨ascii "old", 100, true⟩).plain edited =
        some final.plain := by
  have hrun : (cachedSystem.exec (fresh fun _ => some ⟨ascii "old", 100, true⟩) edited).isSome := by
    decide +kernel
  obtain ⟨final, hexec⟩ := Option.isSome_iff_exists.mp hrun
  exact ⟨final, hexec, cached_refines_plain ⟨⟨100, rfl⟩, rfl⟩ (by decide +kernel) hexec⟩

end Sok.Serving
