import Sok.Cache.Threads
import Sok.Cache.Transparency

/-!
# The cache in use over files that stand still

While no file changes, every `get` of every thread answers what its file holds,
whatever the other threads do in between: a body, run alone, keeps the entries up
to date, and the rule for methods under a mutex carries this to all interleavings.
-/

namespace Sok.FileCache

namespace Disk

/-- What the system calls of any `get` return while the files stand still and there is memory. -/
def answers (disk : Disk) (path : Bytes) : Answers where
  checkedMtime := (· = (disk.calls path true).checkedMtime)
  opens := (· = (disk.calls path true).opens)
  size := (· = (disk.calls path true).size)
  allocates := (· = true)
  bytes := (· = (disk.calls path true).bytes)
  loadedMtime := (· = (disk.calls path true).loadedMtime)

variable {disk : Disk}

theorem eq_calls_of_allow {path : Bytes} {calls : FileCalls}
    (h : (disk.answers path).Allow calls) : calls = disk.calls path true := by
  obtain ⟨checkedMtime, opens, size, allocates, bytes, loadedMtime⟩ := calls
  obtain ⟨hchecked, hopens, hsize, hallocates, hbytes, hloaded⟩ := h
  obtain rfl : checkedMtime = _ := hchecked
  obtain rfl : opens = _ := hopens
  obtain rfl : size = _ := hsize
  obtain rfl : allocates = _ := hallocates
  obtain rfl : bytes = _ := hbytes
  obtain rfl : loadedMtime = _ := hloaded
  rfl

theorem allow_calls (path : Bytes) : (disk.answers path).Allow (disk.calls path true) :=
  ⟨rfl, rfl, rfl, rfl, rfl, rfl⟩

end Disk

/-- The answer is what the file holds; the other methods may return anything. -/
def AnswersFile (disk : Disk) (method : Method) (answer : Answer) : Prop :=
  ∀ path, method = .get path → answer = .page (disk.current path)

theorem upToDate_new (maxSize : ℕ) (disk : Disk) : UpToDate ⟨new maxSize, disk⟩ :=
  ⟨linked_new maxSize, fun path file hfile => absurd hfile (by simp [contents, new])⟩

/-- A method in one step keeps the entries up to date and answers what the file holds. -/
theorem UpToDate.apply {disk : Disk} {method : Method} {cache next : FileCache} {calls : FileCalls}
    {answer : Answer} (h : UpToDate ⟨cache, disk⟩) (hcalls : Allowed disk.answers method calls)
    (happly : apply method cache calls = some (next, answer)) :
    UpToDate ⟨next, disk⟩ ∧ AnswersFile disk method answer := by
  cases method with
  | get path =>
      obtain rfl := Disk.eq_calls_of_allow hcalls
      obtain ⟨⟨after, page⟩, hget, heq⟩ := Option.map_eq_some_iff.mp happly
      cases heq
      have hstep : worldSystem.step ⟨cache, disk⟩ (.get path true) = some ⟨after, disk⟩ := by
        simp only [worldSystem, hget, Option.map_some]
      have hkept : NeverBack ⟨cache, disk⟩ (.get path true) := trivial
      refine ⟨h.step hkept hstep, fun path' hpath => ?_⟩
      cases hpath
      obtain ⟨after', hcurrent⟩ := h.transparent path
      have hsame : (after, page) = (after', disk.current path) :=
        Option.some.inj (hget.symm.trans hcurrent)
      exact congrArg Answer.page (Prod.mk.inj hsame).2
  | setMaxSize maxSize =>
      obtain ⟨after, hset, heq⟩ := Option.map_eq_some_iff.mp happly
      cases heq
      have hstep : worldSystem.step ⟨cache, disk⟩ (.setMaxSize maxSize) = some ⟨next, disk⟩ := by
        simp only [worldSystem, hset, Option.map_some]
      have hkept : NeverBack ⟨cache, disk⟩ (.setMaxSize maxSize) := trivial
      exact ⟨h.step hkept hstep, nofun⟩
  | getCacheHits | getCacheMisses =>
      cases happly
      exact ⟨h, nofun⟩

/-- **What the threads read.**  Over files that stand still, for any number of threads and any
interleaving of their statements, a `get` that has come to its end returns what its file holds:
its bytes and MIME type, or nothing when it cannot be opened or is empty.  The cache that the
threads leave behind is up to date whenever no thread holds the exclusive lock. -/
theorem threads_get_current {thread : Type*} [DecidableEq thread] (disk : Disk)
    {c : Locked.Concurrent thread FileCache Method Point Answer}
    (h : (Locked.concurrent object IsNew).Reachable (Locked.Given (Allowed disk.answers)) c) :
    (∀ p path answer, c.phase p = .done (.get path) answer → answer = .page (disk.current path)) ∧
      (c.writer = none → Transparent ⟨c.state, disk⟩) := by
  have hnew : ∀ cache, IsNew cache → UpToDate ⟨cache, disk⟩ := by
    rintro cache ⟨maxSize, rfl⟩
    exact upToDate_new maxSize disk
  obtain ⟨hgood, hdone⟩ := Locked.monitor (fun _ _ _ _ hbody => apply_of_completes hbody) hnew
    (fun _ _ _ _ _ hcache hcalls happly => hcache.apply hcalls happly) h
  exact ⟨fun p path answer hp => hdone p _ _ hp path rfl,
    fun hwriter => (hgood hwriter).transparent⟩

/-- A directory where every name is one page. -/
def onePage : Disk := fun _ => some ⟨ascii "text", 1, true⟩

/-- The first thread loads the page, and the second one finds it in the cache. -/
def getTwice : List (Locked.Action Bool Method FileCalls Answer) :=
  [.call false (.get (ascii "a.js")), .call true (.get (ascii "a.js")), .lock false] ++
    List.replicate 12 (.statement false (onePage.calls (ascii "a.js") true)) ++
    [.unlock false, .lock true] ++
    List.replicate 7 (.statement true (onePage.calls (ascii "a.js") true))

theorem given_getTwice : ∀ action ∈ getTwice,
    ∀ state : Locked.Concurrent Bool FileCache Method Point Answer,
      Locked.Given (Allowed onePage.answers) state action := by
  intro action haction state
  cases action with
  | statement p given =>
      have hgiven : p = false ∧ given = onePage.calls (ascii "a.js") true ∨
          p = true ∧ given = onePage.calls (ascii "a.js") true := by
        simpa [getTwice] using haction
      intro method _ _
      rw [hgiven.elim And.right And.right]
      cases method with
      | get path => exact Disk.allow_calls path
      | setMaxSize _ | getCacheHits | getCacheMisses => trivial
  | call _ _ | lock _ | unlock _ | «return» _ _ => trivial

/-- Both threads read the page. -/
theorem threads_get_current_two : ∃ c,
    (Locked.concurrent object IsNew).exec (unused 100) getTwice = some c ∧
      (∃ answer, c.phase true = .done (.get (ascii "a.js")) answer) ∧
      (∀ p path answer, c.phase p = .done (.get path) answer →
        answer = .page (onePage.current path)) ∧
      (c.writer = none → Transparent ⟨c.state, onePage⟩) := by
  have hrun : (((Locked.concurrent object IsNew).exec (unused 100) getTwice).map
      fun c => c.phase true) =
        some (.done (.get (ascii "a.js")) (.page (onePage.current (ascii "a.js")))) := by
    decide +kernel
  obtain ⟨c, hexec, hdone⟩ := Option.map_eq_some_iff.mp hrun
  have hinit : (Locked.concurrent object IsNew).init (unused 100 : Locked.Concurrent Bool ..) :=
    ⟨⟨100, rfl⟩, fun _ => rfl, rfl, rfl⟩
  have hreachable : (Locked.concurrent object IsNew).Reachable
      (Locked.Given (Allowed onePage.answers)) c :=
    (Transition.System.Reachable.initial hinit).exec
      (Transition.System.permits_of_forall given_getTwice _) hexec
  exact ⟨c, hexec, ⟨_, hdone⟩, threads_get_current onePage hreachable⟩

end Sok.FileCache
