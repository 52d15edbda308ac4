import Sok.Epoll.SingleWorker
import Sok.Tls.Model

/-!
# The lifetime of an SSL object

An entry of `ssl_map` belongs to the open connection of its fd, and an object that is
not freed has an entry; as long as the fd has one task, no other task can free the object
that a call has in its hands (`Owned`).  So every exit of `handle_https` and every cleanup
of the worker meets the object in the state it expects.

Two things break this.  `ssl_map[client_fd] = ssl` may throw, and then nobody knows the
object any more; and `handle_https` erases its entry without the mutex, so that the erase
may collide with the accesses of other tasks to the map.

## Strategy

A step of a call is one of a few things done to an object: it is created, used, freed, its
entry erased.  Each of these has its lemma about `Owned` (`Owned.create`, `Owned.free`,
`Owned.dropEntry`, `Owned.erase`), and `use_eq` says that a use changes nothing, as the
object is not freed.  A step of the event loop touches objects only in the cleanup of a
worker; the others keep the connections and tasks that `Owned` speaks of
(`Owned.frame_tasks`).  That a fd has one task comes from the marks, as a premise here.
-/

namespace Sok.Tls

open EpollWorker (Conn HandlerResult OneTaskPerFd Params Task TaskPc)

/-! ## The property -/

/-- The SSL objects of a child process in one state. -/
structure Lifetime (s : State) : Prop where
  /-- No object is freed twice. -/
  once : ∀ ssl o, s.objects ssl = some o → o.freed ≤ 1
  /-- An object that is not freed is the entry of its own connection, which is open. -/
  kept : ∀ ssl o, s.objects ssl = some o → o.freed = 0 →
    ∃ fd c, s.sslMap fd = some ssl ∧ s.loop.conns fd = some c ∧ c.serial = o.serial
  /-- When its connection has been closed, an object has been freed once. -/
  closed : ∀ ssl o, s.objects ssl = some o →
    (∀ fd c, s.loop.conns fd = some c → c.serial ≠ o.serial) → o.freed = 1
  /-- No object is used, or found in `ssl_map`, after it was freed. -/
  unused : ∀ ssl o, s.objects ssl = some o → o.stale = false
  /-- Only an open fd has an entry. -/
  entry_open : ∀ fd ssl, s.sslMap fd = some ssl → s.loop.conns fd ≠ none
  /-- The entry of a connection is an object that was made for it, not one of a
  predecessor with the same fd. -/
  own : ∀ fd ssl c, s.sslMap fd = some ssl → s.loop.conns fd = some c →
    ∃ o, s.objects ssl = some o ∧ o.serial = c.serial

/-! ## The invariant -/

/-- What the call of a task on the fd relies on. -/
def State.Holds (s : State) (fd : Fd) (pc : CallPc) : Prop :=
  ∀ ssl freed, pc.object = some (ssl, freed) →
    s.sslMap fd = some ssl ∧ ∃ o, s.objects ssl = some o ∧ o.freed = freed

/-- Entries, objects and calls refer to each other as long as the connection is open. -/
structure Owned (s : State) : Prop where
  fresh_task : ∀ id t, s.loop.tasks id = some t → id < s.loop.nextTask
  fresh_object : ∀ ssl o, s.objects ssl = some o → ssl < s.nextObject
  call : ∀ id pc, s.calls id = some pc →
    ∃ t, s.loop.tasks id = some t ∧ t.pc = .running ∧ s.Holds t.fd pc
  entry : ∀ fd ssl, s.sslMap fd = some ssl →
    ∃ o c, s.objects ssl = some o ∧ s.loop.conns fd = some c ∧ c.serial = o.serial ∧
      (o.freed = 0 ∨ ∃ id t, s.loop.tasks id = some t ∧ t.fd = fd ∧
        s.calls id = some (.erasing ssl))
  entry_unique : ∀ fd fd' ssl, s.sslMap fd = some ssl → s.sslMap fd' = some ssl → fd = fd'
  object : ∀ ssl o, s.objects ssl = some o → o.stale = false ∧ o.freed ≤ 1 ∧
    (o.freed = 0 → ∃ fd, s.sslMap fd = some ssl)
  /-- Behind the cleanup the fd has no entry. -/
  cleaned : ∀ id t, s.loop.tasks id = some t → t.pc = .unregistering ∨ t.pc = .closing →
    s.sslMap t.fd = none

theorem owned_start : Owned start where
  fresh_task _ _ h := absurd h (by simp [start, EpollWorker.start])
  fresh_object _ _ h := absurd h (by simp [start])
  call _ _ h := absurd h (by simp [start])
  entry _ _ h := absurd h (by simp [start])
  entry_unique _ _ _ h := absurd h (by simp [start])
  object _ _ h := absurd h (by simp [start])
  cleaned _ _ h := absurd h (by simp [start, EpollWorker.start])

theorem Owned.lifetime {s : State} (h : Owned s) : Lifetime s := by
  have hkept : ∀ ssl o, s.objects ssl = some o → o.freed = 0 →
      ∃ fd c, s.sslMap fd = some ssl ∧ s.loop.conns fd = some c ∧ c.serial = o.serial := by
    intro ssl o ho hfreed
    obtain ⟨fd, hentry⟩ := (h.object ssl o ho).2.2 hfreed
    obtain ⟨o', c, ho', hc, hserial, -⟩ := h.entry fd ssl hentry
    obtain rfl := Option.some.inj (ho.symm.trans ho')
    exact ⟨fd, c, hentry, hc, hserial⟩
  refine ⟨fun ssl o ho => (h.object ssl o ho).2.1, hkept, fun ssl o ho hclosed => ?_,
    fun ssl o ho => (h.object ssl o ho).1, fun fd ssl hentry => ?_, fun fd ssl c hentry hc => ?_⟩
  · have hne : o.freed ≠ 0 := fun hzero => by
      obtain ⟨fd, c, -, hc, hserial⟩ := hkept ssl o ho hzero
      exact hclosed fd c hc hserial
    have hle := (h.object ssl o ho).2.1
    omega
  · obtain ⟨-, c, -, hc, -⟩ := h.entry fd ssl hentry
    rw [hc]
    exact Option.some_ne_none c
  · obtain ⟨o, c', ho, hc', hserial, -⟩ := h.entry fd ssl hentry
    obtain rfl := Option.some.inj (hc.symm.trans hc')
    exact ⟨o, ho, hserial.symm⟩

/-! ## What a call does -/

section

variable {s : State}

/-- An object in use is not freed, so using it once more changes nothing. -/
theorem use_eq {ssl : ℕ} {o : Object} (ho : s.objects ssl = some o)
    (hfreed : o.freed = 0) : s.use ssl = s := by
  have huse : o.use = o := by
    obtain ⟨serial, freed, stale⟩ := o
    obtain rfl : freed = 0 := hfreed
    simp [Object.use]
  have hupdate : Function.update s.objects ssl ((s.objects ssl).map Object.use) = s.objects := by
    rw [ho, Option.map_some, huse, ← ho, Function.update_eq_self]
  rw [State.use, hupdate]

theorem Owned.setCall (h : Owned s) {id : ℕ} {task : Task} {pc : CallPc}
    (htask : s.loop.tasks id = some task) (hrunning : task.pc = .running)
    (hcall : ∀ ssl, s.calls id ≠ some (.erasing ssl)) (hholds : s.Holds task.fd pc) :
    Owned (s.setCall id pc) where
  fresh_task := h.fresh_task
  fresh_object := h.fresh_object
  call other pc' hpc' := by
    by_cases hid : other = id
    · subst hid
      obtain rfl : pc = pc' := by simpa [State.setCall] using hpc'
      exact ⟨task, htask, hrunning, hholds⟩
    · exact h.call other pc' (by simpa [State.setCall, hid] using hpc')
  entry fd ssl hentry := by
    obtain ⟨o, c, ho, hc, hserial, hfreed⟩ := h.entry fd ssl hentry
    refine ⟨o, c, ho, hc, hserial, hfreed.imp_right ?_⟩
    rintro ⟨other, t, ht, hfd, herasing⟩
    have hne : other ≠ id := by
      rintro rfl
      exact hcall ssl herasing
    exact ⟨other, t, ht, hfd, by simpa [State.setCall, hne] using herasing⟩
  entry_unique := h.entry_unique
  object := h.object
  cleaned := h.cleaned

theorem ne_erasing {id : ℕ} {pc : CallPc} (hcall : s.calls id = some pc)
    (hpc : pc.erases = false) (ssl : ℕ) : s.calls id ≠ some (.erasing ssl) := by
  intro herasing
  obtain rfl := Option.some.inj (hcall.symm.trans herasing)
  exact absurd hpc (by simp [CallPc.erases])

theorem holds_of_none {fd : Fd} {pc : CallPc} (h : pc.object = none) : s.Holds fd pc :=
  fun _ _ hobject => absurd (h.symm.trans hobject) (by simp)

theorem Owned.move (h : Owned s) {id : ℕ} {task : Task} {pc pc' : CallPc}
    (htask : s.loop.tasks id = some task) (hcall : s.calls id = some pc)
    (hpc : pc.erases = false) (hobject : pc'.object = none ∨ pc'.object = pc.object) :
    Owned (s.setCall id pc') := by
  obtain ⟨t, ht, hrunning, hholds⟩ := h.call id pc hcall
  obtain rfl := Option.some.inj (htask.symm.trans ht)
  refine h.setCall htask hrunning (ne_erasing hcall hpc) ?_
  rcases hobject with hnone | hsame
  · exact holds_of_none hnone
  · exact fun ssl freed hfreed => hholds ssl freed (hsame ▸ hfreed)

/-- Two calls that hold entries of one fd are one. -/
theorem Owned.call_unique (h : Owned s) (hone : OneTaskPerFd s.loop) {i j : ℕ} {pc : CallPc}
    {ssl freed : ℕ} {task : Task} (htask : s.loop.tasks i = some task)
    (hentry : s.sslMap task.fd = some ssl) (hcall : s.calls j = some pc)
    (hobject : pc.object = some (ssl, freed)) : j = i := by
  obtain ⟨t, ht, -, hholds⟩ := h.call j pc hcall
  exact hone j i t task ht htask
    (h.entry_unique t.fd task.fd ssl (hholds ssl freed hobject).1 hentry)

theorem Owned.create (h : Owned s) (hone : OneTaskPerFd s.loop) {id : ℕ} {task : Task} {c : Conn}
    (htask : s.loop.tasks id = some task) (hrunning : task.pc = .running)
    (hentry : s.sslMap task.fd = none) (hconn : s.loop.conns task.fd = some c) :
    Owned ((s.create c.serial).insert task.fd s.nextObject) := by
  have hnew : s.objects s.nextObject = none := by
    cases ho : s.objects s.nextObject with
    | none => rfl
    | some o => exact absurd (h.fresh_object s.nextObject o ho) (lt_irrefl s.nextObject)
  have hold : ∀ {ssl o}, s.objects ssl = some o →
      ((s.create c.serial).insert task.fd s.nextObject).objects ssl = some o := by
    intro ssl o ho
    have hne : ssl ≠ s.nextObject := by
      rintro rfl
      exact absurd (hnew.symm.trans ho) (by simp)
    simpa [State.create, State.insert, hne] using ho
  have hmap : ∀ {fd ssl}, s.sslMap fd = some ssl →
      ((s.create c.serial).insert task.fd s.nextObject).sslMap fd = some ssl := by
    intro fd ssl hfd
    have hne : fd ≠ task.fd := by
      rintro rfl
      exact absurd (hentry.symm.trans hfd) (by simp)
    simpa [State.create, State.insert, hne] using hfd
  have hback : ∀ {fd ssl}, ((s.create c.serial).insert task.fd s.nextObject).sslMap fd = some ssl →
      (fd = task.fd ∧ ssl = s.nextObject) ∨ s.sslMap fd = some ssl := by
    intro fd ssl hfd
    by_cases heq : fd = task.fd
    · subst heq
      exact Or.inl ⟨rfl, by simpa [State.create, State.insert, eq_comm] using hfd⟩
    · exact Or.inr (by simpa [State.create, State.insert, heq] using hfd)
  have hunknown : ∀ fd, s.sslMap fd ≠ some s.nextObject := by
    intro fd hfd
    obtain ⟨o, -, ho, -⟩ := h.entry fd s.nextObject hfd
    exact absurd (hnew.symm.trans ho) (by simp)
  constructor
  case fresh_task => exact h.fresh_task
  case fresh_object =>
    intro ssl o ho
    change ssl < s.nextObject + 1
    by_cases heq : ssl = s.nextObject
    · omega
    · have hlt := h.fresh_object ssl o (by simpa [State.create, State.insert, heq] using ho)
      omega
  case call =>
    intro other pc hcall
    obtain ⟨t, ht, hpc, hholds⟩ := h.call other pc hcall
    refine ⟨t, ht, hpc, fun ssl freed hobject => ?_⟩
    obtain ⟨hmapped, o, ho, hfreed⟩ := hholds ssl freed hobject
    exact ⟨hmap hmapped, o, hold ho, hfreed⟩
  case entry =>
    intro fd ssl hfd
    rcases hback hfd with ⟨rfl, rfl⟩ | hfd
    · exact ⟨⟨c.serial, 0, false⟩, c, by simp [State.create, State.insert], hconn, rfl, Or.inl rfl⟩
    · obtain ⟨o, d, ho, hd, hserial, hfreed⟩ := h.entry fd ssl hfd
      exact ⟨o, d, hold ho, hd, hserial, hfreed⟩
  case entry_unique =>
    intro fd fd' ssl hfd hfd'
    rcases hback hfd with ⟨rfl, rfl⟩ | hfd <;> rcases hback hfd' with ⟨rfl, hssl⟩ | hfd'
    · rfl
    · exact absurd hfd' (hunknown fd')
    · exact absurd (hssl ▸ hfd) (hunknown fd)
    · exact h.entry_unique fd fd' ssl hfd hfd'
  case object =>
    intro ssl o ho
    by_cases heq : ssl = s.nextObject
    · subst heq
      obtain rfl : (⟨c.serial, 0, false⟩ : Object) = o := by
        simpa [State.create, State.insert] using ho
      exact ⟨rfl, Nat.zero_le 1, fun _ => ⟨task.fd, by simp [State.create, State.insert]⟩⟩
    · obtain ⟨hstale, hfreed, hentry⟩ :=
        h.object ssl o (by simpa [State.create, State.insert, heq] using ho)
      refine ⟨hstale, hfreed, fun hzero => ?_⟩
      obtain ⟨fd, hfd⟩ := hentry hzero
      exact ⟨fd, hmap hfd⟩
  case cleaned =>
    intro other t ht hpc
    have hne : t.fd ≠ task.fd := by
      intro hfd
      obtain rfl := hone other id t task ht htask hfd
      obtain rfl := Option.some.inj (htask.symm.trans ht)
      rw [hrunning] at hpc
      exact absurd hpc (by simp)
    simpa [State.create, State.insert, hne] using h.cleaned other t ht hpc

theorem Owned.free (h : Owned s) (hone : OneTaskPerFd s.loop) {id ssl : ℕ} {task : Task}
    (htask : s.loop.tasks id = some task) (hcall : s.calls id = some (.dropping ssl)) :
    Owned ((s.free ssl).setCall id (.erasing ssl)) := by
  obtain ⟨t, ht, hrunning, hholds⟩ := h.call id (.dropping ssl) hcall
  obtain rfl := Option.some.inj (htask.symm.trans ht)
  obtain ⟨hmapped, o, ho, hfreed⟩ := hholds ssl 0 rfl
  have hfree : ((s.free ssl).setCall id (.erasing ssl)).objects ssl = some o.free := by
    simp [State.setCall, State.free, ho]
  have hother : ∀ {other}, other ≠ ssl →
      ((s.free ssl).setCall id (.erasing ssl)).objects other = s.objects other := by
    intro other hne
    simp [State.setCall, State.free, hne]
  have hone_free : o.free.freed = 1 := by
    simp [Object.free, hfreed]
  constructor
  case fresh_task => exact h.fresh_task
  case fresh_object =>
    intro other p hp
    by_cases heq : other = ssl
    · exact heq ▸ h.fresh_object ssl o ho
    · exact h.fresh_object other p (hother heq ▸ hp)
  case call =>
    intro other pc hpc
    by_cases hid : other = id
    · subst hid
      obtain rfl : CallPc.erasing ssl = pc := by simpa [State.setCall] using hpc
      refine ⟨task, htask, hrunning, fun ssl' freed hobject => ?_⟩
      obtain ⟨rfl, rfl⟩ : ssl = ssl' ∧ 1 = freed := by simpa [CallPc.object] using hobject
      exact ⟨hmapped, o.free, hfree, hone_free⟩
    · have hother_call : s.calls other = some pc := by
        simpa [State.setCall, State.free, hid] using hpc
      obtain ⟨t, ht, hrun, hholds'⟩ := h.call other pc hother_call
      refine ⟨t, ht, hrun, fun ssl' freed hobject => ?_⟩
      obtain ⟨hmapped', p, hp, hfreed'⟩ := hholds' ssl' freed hobject
      have hne : ssl' ≠ ssl := by
        rintro rfl
        exact hid (h.call_unique hone htask hmapped hother_call hobject)
      exact ⟨hmapped', p, (hother hne).trans hp, hfreed'⟩
  case entry =>
    intro fd ssl' hfd
    obtain ⟨p, c, hp, hc, hserial, hfreed'⟩ := h.entry fd ssl' hfd
    by_cases heq : ssl' = ssl
    · subst heq
      obtain rfl := Option.some.inj (ho.symm.trans hp)
      refine ⟨o.free, c, hfree, hc, hserial, Or.inr ⟨id, task, htask, ?_, ?_⟩⟩
      · exact h.entry_unique task.fd fd ssl' hmapped hfd
      · simp [State.setCall]
    · refine ⟨p, c, (hother heq).trans hp, hc, hserial, hfreed'.imp_right ?_⟩
      rintro ⟨other, t, ht, htfd, herasing⟩
      have hne : other ≠ id := by
        rintro rfl
        exact absurd (hcall.symm.trans herasing) (by simp)
      exact ⟨other, t, ht, htfd, by simpa [State.setCall, State.free, hne] using herasing⟩
  case entry_unique => exact h.entry_unique
  case object =>
    intro other p hp
    by_cases heq : other = ssl
    · subst heq
      obtain rfl := Option.some.inj (hfree.symm.trans hp)
      have hstale := (h.object other o ho).1
      refine ⟨by simp [Object.free, Object.use, hstale, hfreed], hone_free.le, fun hzero => ?_⟩
      omega
    · exact h.object other p (hother heq ▸ hp)
  case cleaned => exact h.cleaned

/-- An object that has been freed loses its entry, and no call holds it any more. -/
theorem Owned.dropEntry (h : Owned s) {fd : Fd} {ssl : ℕ} {o : Object}
    {calls : ℕ → Option CallPc} (hentry : s.sslMap fd = some ssl) (hstale : o.stale = false)
    (hfreed : o.freed = 1)
    (hcalls : ∀ id pc, calls id = some pc →
      (s.calls id = some pc ∧ ∀ freed, pc.object ≠ some (ssl, freed)) ∨
        (pc.object = none ∧ ∃ t, s.loop.tasks id = some t ∧ t.pc = .running))
    (herasing : ∀ id other, other ≠ ssl → s.calls id = some (.erasing other) →
      calls id = some (.erasing other)) :
    Owned { s with
      sslMap := Function.update s.sslMap fd none
      objects := Function.update s.objects ssl (some o)
      calls := calls } := by
  have hkeep : ∀ {other ssl'}, ssl' ≠ ssl → s.sslMap other = some ssl' →
      Function.update s.sslMap fd none other = some ssl' := by
    intro other ssl' hne hother
    have hfd : other ≠ fd := by
      rintro rfl
      exact hne (Option.some.inj (hother.symm.trans hentry))
    simpa [hfd] using hother
  have hback : ∀ {other ssl'}, Function.update s.sslMap fd none other = some ssl' →
      ssl' ≠ ssl ∧ s.sslMap other = some ssl' := by
    intro other ssl' hother
    by_cases hfd : other = fd
    · simp [hfd] at hother
    · rw [Function.update_of_ne hfd] at hother
      refine ⟨?_, hother⟩
      rintro rfl
      exact hfd (h.entry_unique other fd ssl' hother hentry)
  have hobject : ∀ {other}, other ≠ ssl →
      Function.update s.objects ssl (some o) other = s.objects other :=
    fun hne => Function.update_of_ne hne _ _
  constructor
  case fresh_task => exact h.fresh_task
  case fresh_object =>
    intro other p hp
    by_cases heq : other = ssl
    · obtain ⟨q, -, hq, -⟩ := h.entry fd ssl hentry
      exact heq ▸ h.fresh_object ssl q hq
    · exact h.fresh_object other p ((hobject heq).symm.trans hp)
  case call =>
    intro id pc hpc
    rcases hcalls id pc hpc with ⟨hcall, hne⟩ | ⟨hnone, t, ht, hrunning⟩
    · obtain ⟨t, ht, hrunning, hholds⟩ := h.call id pc hcall
      refine ⟨t, ht, hrunning, fun ssl' freed hpc_object => ?_⟩
      obtain ⟨hmapped, p, hp, hp_freed⟩ := hholds ssl' freed hpc_object
      have hssl : ssl' ≠ ssl := by
        rintro rfl
        exact hne freed hpc_object
      exact ⟨hkeep hssl hmapped, p, (hobject hssl).trans hp, hp_freed⟩
    · exact ⟨t, ht, hrunning, holds_of_none hnone⟩
  case entry =>
    intro other ssl' hother
    obtain ⟨hne, hother⟩ := hback hother
    obtain ⟨p, c, hp, hc, hserial, hp_freed⟩ := h.entry other ssl' hother
    refine ⟨p, c, (hobject hne).trans hp, hc, hserial, hp_freed.imp_right ?_⟩
    rintro ⟨id, t, ht, hfd, hcall⟩
    exact ⟨id, t, ht, hfd, herasing id ssl' hne hcall⟩
  case entry_unique =>
    intro first second ssl' hfirst hsecond
    exact h.entry_unique first second ssl' (hback hfirst).2 (hback hsecond).2
  case object =>
    intro other p hp
    by_cases heq : other = ssl
    · subst heq
      obtain rfl : o = p := by simpa using hp
      refine ⟨hstale, hfreed.le, fun hzero => ?_⟩
      omega
    · obtain ⟨hp_stale, hle, hp_entry⟩ := h.object other p ((hobject heq).symm.trans hp)
      refine ⟨hp_stale, hle, fun hzero => ?_⟩
      obtain ⟨fd', hfd'⟩ := hp_entry hzero
      exact ⟨fd', hkeep heq hfd'⟩
  case cleaned =>
    intro id t ht hpc
    have hnone := h.cleaned id t ht hpc
    by_cases hfd : t.fd = fd
    · simp [hfd]
    · simpa [hfd] using hnone

/-- `ssl_map.erase` behind `SSL_free`. -/
theorem Owned.erase (h : Owned s) (hone : OneTaskPerFd s.loop) {id ssl : ℕ} {task : Task}
    (htask : s.loop.tasks id = some task) (hcall : s.calls id = some (.erasing ssl)) :
    Owned ((s.erase task.fd).setCall id (.returned .drop)) := by
  obtain ⟨t, ht, hrunning, hholds⟩ := h.call id (.erasing ssl) hcall
  obtain rfl := Option.some.inj (htask.symm.trans ht)
  obtain ⟨hmapped, o, ho, hfreed⟩ := hholds ssl 1 rfl
  have hsame : Function.update s.objects ssl (some o) = s.objects := by
    rw [← ho, Function.update_eq_self]
  have hdrop : Owned { s with
      sslMap := Function.update s.sslMap task.fd none
      objects := Function.update s.objects ssl (some o)
      calls := Function.update s.calls id (some (.returned .drop)) } := by
    refine h.dropEntry hmapped (h.object ssl o ho).1 hfreed (fun other pc hpc => ?_)
      fun other ssl' hne herasing => ?_
    · by_cases hid : other = id
      · subst hid
        obtain rfl : CallPc.returned .drop = pc := by simpa using hpc
        exact Or.inr ⟨rfl, task, htask, hrunning⟩
      · have hother : s.calls other = some pc := by simpa [hid] using hpc
        exact Or.inl ⟨hother, fun freed hobject =>
          hid (h.call_unique hone htask hmapped hother hobject)⟩
    · have hid : other ≠ id := by
        rintro rfl
        have hsome := Option.some.inj (hcall.symm.trans herasing)
        exact hne (CallPc.erasing.inj hsome).symm
      simpa [hid] using herasing
  rwa [hsame] at hdrop

/-! ## What the event loop does -/

theorem Owned.calls_eq_none (h : Owned s) {id : ℕ} {task : Task}
    (htask : s.loop.tasks id = some task) (hpc : task.pc ≠ .running) : s.calls id = none := by
  cases hcall : s.calls id with
  | none => rfl
  | some pc =>
      obtain ⟨t, ht, hrunning, -⟩ := h.call id pc hcall
      obtain rfl := Option.some.inj (htask.symm.trans ht)
      exact absurd hrunning hpc

theorem Owned.cleanUp (h : Owned s) (hone : OneTaskPerFd s.loop) {id : ℕ} {task : Task}
    (htask : s.loop.tasks id = some task) (hpc : task.pc = .freeing) :
    Owned (s.cleanUp task.fd) := by
  have hnone : s.calls id = none := h.calls_eq_none htask (by rw [hpc]; simp)
  cases hentry : s.sslMap task.fd with
  | none => rwa [State.cleanUp, hentry]
  | some ssl =>
      obtain ⟨o, -, ho, -, -, hfreed | ⟨other, t, ht, hfd, herasing⟩⟩ := h.entry task.fd ssl hentry
      · have hstale := (h.object ssl o ho).1
        simp only [State.cleanUp, hentry, State.free, State.erase, ho, Option.map_some]
        refine h.dropEntry hentry ?_ ?_ (fun other pc hother => Or.inl ⟨hother, fun freed hobject =>
          ?_⟩) fun _ _ _ herasing => herasing
        · simp [Object.free, Object.use, hstale, hfreed]
        · simp [Object.free, hfreed]
        · obtain rfl := h.call_unique hone htask hentry hother hobject
          exact absurd (hnone.symm.trans hother) (by simp)
      · obtain rfl := hone other id t task ht htask hfd
        exact absurd (hnone.symm.trans herasing) (by simp)

theorem sslMap_cleanUp (fd : Fd) : (s.cleanUp fd).sslMap fd = none := by
  unfold State.cleanUp
  split
  · simp [State.erase]
  · assumption

theorem loop_cleanUp (s : State) (fd : Fd) : (s.cleanUp fd).loop = s.loop := by
  unfold State.cleanUp
  split <;> rfl

theorem calls_cleanUp (s : State) (fd : Fd) : (s.cleanUp fd).calls = s.calls := by
  unfold State.cleanUp
  split <;> rfl

/-- A step of the event loop that leaves the running tasks and the connections with an
entry alone. -/
theorem Owned.frame (h : Owned s) {loop : EpollWorker.State}
    (hfresh : ∀ id t, loop.tasks id = some t → id < loop.nextTask)
    (htasks : ∀ id pc, s.calls id = some pc → loop.tasks id = s.loop.tasks id)
    (hconns : ∀ fd ssl c, s.sslMap fd = some ssl → s.loop.conns fd = some c →
      ∃ d, loop.conns fd = some d ∧ d.serial = c.serial)
    (hcleaned : ∀ id t, loop.tasks id = some t → t.pc = .unregistering ∨ t.pc = .closing →
      s.sslMap t.fd = none) :
    Owned { s with loop := loop } where
  fresh_task := hfresh
  fresh_object := h.fresh_object
  call id pc hcall := by
    obtain ⟨t, ht, hrunning, hholds⟩ := h.call id pc hcall
    exact ⟨t, (htasks id pc hcall).trans ht, hrunning, hholds⟩
  entry fd ssl hentry := by
    obtain ⟨o, c, ho, hc, hserial, hfreed⟩ := h.entry fd ssl hentry
    obtain ⟨d, hd, hd_serial⟩ := hconns fd ssl c hentry hc
    refine ⟨o, d, ho, hd, hd_serial.trans hserial, hfreed.imp_right ?_⟩
    rintro ⟨id, t, ht, hfd, hcall⟩
    exact ⟨id, t, (htasks id _ hcall).trans ht, hfd, hcall⟩
  entry_unique := h.entry_unique
  object := h.object
  cleaned := hcleaned

/-- Every open connection stays open. -/
def KeepsSerials (loop next : EpollWorker.State) : Prop :=
  ∀ fd c, loop.conns fd = some c → ∃ d, next.conns fd = some d ∧ d.serial = c.serial

theorem keepsSerials_of_conns_eq {loop next : EpollWorker.State} (h : next.conns = loop.conns) :
    KeepsSerials loop next :=
  fun _ c hc => ⟨c, h ▸ hc, rfl⟩

theorem keepsSerials_setSocket (loop : EpollWorker.State) (fd : Fd) (f : Socket → Socket) :
    KeepsSerials loop (loop.setSocket fd f) := by
  intro other c hc
  obtain ⟨d, hd, hserial, -⟩ := EpollWorker.State.exists_conn_setSocket f hc
  exact ⟨d, hd, hserial⟩

theorem keepsSerials_setRegistered (loop : EpollWorker.State) (fd : Fd) (registered : Bool) :
    KeepsSerials loop (loop.setRegistered fd registered) := by
  intro other c hc
  obtain ⟨d, hd, hserial, -⟩ := EpollWorker.State.exists_conn_setRegistered registered hc
  exact ⟨d, hd, hserial⟩

theorem keepsSerials_accept {P : Params} {loop : EpollWorker.State} {new : Fd}
    (hunused : P.Unused loop new) (c : Conn) :
    KeepsSerials loop { loop with conns := Function.update loop.conns new (some c) } := by
  intro other d hd
  have hne : other ≠ new := fun heq => absurd (hunused.1.symm.trans (heq ▸ hd)) (by simp)
  exact ⟨d, by simpa [Function.update_of_ne hne] using hd, rfl⟩

/-- A step of the event loop that leaves the tasks alone and keeps the connections. -/
theorem Owned.frame_tasks (h : Owned s) {loop : EpollWorker.State}
    (htasks : loop.tasks = s.loop.tasks) (hnext : loop.nextTask = s.loop.nextTask)
    (hconns : KeepsSerials s.loop loop) : Owned { s with loop := loop } :=
  h.frame (fun id t ht => hnext ▸ h.fresh_task id t (htasks ▸ ht)) (fun _ _ _ => by rw [htasks])
    (fun fd _ c _ hc => hconns fd c hc) fun id t ht => h.cleaned id t (htasks ▸ ht)

theorem Owned.setPc (h : Owned s) {base : EpollWorker.State} {id : ℕ} {task : Task} {pc : TaskPc}
    (htask : s.loop.tasks id = some task) (hcall : s.calls id = none)
    (htasks : base.tasks = s.loop.tasks) (hnext : base.nextTask = s.loop.nextTask)
    (hconns : ∀ fd ssl c, s.sslMap fd = some ssl → s.loop.conns fd = some c →
      ∃ d, base.conns fd = some d ∧ d.serial = c.serial)
    (hcleaned : pc = .unregistering ∨ pc = .closing → s.sslMap task.fd = none) :
    Owned { s with loop := base.setPc id task pc } := by
  refine h.frame (fun other t ht => ?_) (fun other pc' hpc' => ?_) hconns fun other t ht hpc => ?_
  · rcases EpollWorker.State.tasks_setPc ht with ⟨rfl, -⟩ | ⟨-, ht⟩
    · exact hnext ▸ h.fresh_task other task htask
    · exact hnext ▸ h.fresh_task other t (htasks ▸ ht)
  · have hid : other ≠ id := by
      rintro rfl
      exact absurd (hcall.symm.trans hpc') (by simp)
    rw [EpollWorker.State.tasks_setPc_of_ne hid, htasks]
  · rcases EpollWorker.State.tasks_setPc ht with ⟨-, rfl⟩ | ⟨-, ht⟩
    · exact hcleaned hpc
    · exact h.cleaned other t (htasks ▸ ht) hpc

/-- What the task leaves behind when its call has returned. -/
theorem Owned.leave (h : Owned s) {id : ℕ} {result : HandlerResult}
    (hcall : s.calls id = some (.returned result)) :
    Owned { s with calls := Function.update s.calls id none } where
  fresh_task := h.fresh_task
  fresh_object := h.fresh_object
  call other pc hpc := by
    have hid : other ≠ id := by
      rintro rfl
      simp at hpc
    exact h.call other pc (by simpa [hid] using hpc)
  entry fd ssl hentry := by
    obtain ⟨o, c, ho, hc, hserial, hfreed⟩ := h.entry fd ssl hentry
    refine ⟨o, c, ho, hc, hserial, hfreed.imp_right ?_⟩
    rintro ⟨other, t, ht, hfd, herasing⟩
    have hid : other ≠ id := by
      rintro rfl
      exact absurd (hcall.symm.trans herasing) (by simp)
    exact ⟨other, t, ht, hfd, by simpa [hid] using herasing⟩
  entry_unique := h.entry_unique
  object := h.object
  cleaned := h.cleaned

theorem Owned.enqueue (h : Owned s) {fd : Fd} {port : Port} {rest : List Fd} :
    Owned { s with loop := { s.loop with
      tasks := Function.update s.loop.tasks s.loop.nextTask (some ⟨fd, port, .queued⟩)
      nextTask := s.loop.nextTask + 1
      main := .events rest } } := by
  have hnew : ∀ id t, Function.update s.loop.tasks s.loop.nextTask (some ⟨fd, port, .queued⟩) id =
      some t → (id = s.loop.nextTask ∧ t.pc = .queued) ∨ s.loop.tasks id = some t := by
    intro id t ht
    by_cases hid : id = s.loop.nextTask
    · subst hid
      rw [Function.update_self, Option.some.injEq] at ht
      exact Or.inl ⟨rfl, ht ▸ rfl⟩
    · exact Or.inr (by rwa [Function.update_of_ne hid] at ht)
  refine h.frame (fun id t ht => ?_) (fun id pc hcall => ?_) (fun fd' ssl c _ hc => ⟨c, hc, rfl⟩)
    fun id t ht hpc => ?_
  · change id < s.loop.nextTask + 1
    rcases hnew id t ht with ⟨rfl, -⟩ | ht
    · omega
    · have hlt := h.fresh_task id t ht
      omega
  · obtain ⟨t, ht, -⟩ := h.call id pc hcall
    exact Function.update_of_ne (h.fresh_task id t ht).ne _ _
  · rcases hnew id t ht with ⟨-, hqueued⟩ | ht
    · exact absurd (hqueued ▸ hpc) (by simp)
    · exact h.cleaned id t ht hpc

theorem Owned.release (h : Owned s) {id : ℕ} {task : Task} (htask : s.loop.tasks id = some task)
    (hpc : task.pc = .releasing) :
    Owned { s with loop := { s.loop with
      tasks := Function.update s.loop.tasks id none
      workingFds := Function.update s.loop.workingFds task.fd false } } := by
  have hnone : s.calls id = none := h.calls_eq_none htask (by rw [hpc]; simp)
  have hold : ∀ other t, Function.update s.loop.tasks id none other = some t →
      s.loop.tasks other = some t := by
    intro other t ht
    by_cases hid : other = id
    · simp [hid] at ht
    · rwa [Function.update_of_ne hid] at ht
  refine h.frame (fun other t ht => h.fresh_task other t (hold other t ht))
    (fun other pc hcall => ?_) (fun fd ssl c _ hc => ⟨c, hc, rfl⟩)
    fun other t ht => h.cleaned other t (hold other t ht)
  have hid : other ≠ id := by
    rintro rfl
    exact absurd (hnone.symm.trans hcall) (by simp)
  exact Function.update_of_ne hid _ _

theorem Owned.loop {P : Params} (h : Owned s) (hone : OneTaskPerFd s.loop)
    {a : EpollWorker.Action} {loop : EpollWorker.State} (hallows : s.Allows a)
    (hstep : EpollWorker.Step P s.loop a loop) : Owned { s.beside a with loop := loop } := by
  cases hstep with
  -- the main thread and the peers
  | epollWait _ _ | acceptNone _ | mapInsert _ | check _ | findPortMissing _ _ | findPortSkip _ _
  | findPort _ _ | eraseStale _ | findPortAgain _ _ | findPortGone _ _ =>
      exact h.frame_tasks rfl rfl (keepsSerials_of_conns_eq rfl)
  | accept _ _ hunused => exact h.frame_tasks rfl rfl (keepsSerials_accept hunused _)
  | ctlAdd _ => exact h.frame_tasks rfl rfl (keepsSerials_setRegistered _ _ _)
  | enqueue _ => exact h.enqueue
  | arrive => exact h.frame_tasks rfl rfl (keepsSerials_setSocket _ _ _)
  | hangup => exact h.frame_tasks rfl rfl (keepsSerials_setSocket _ _ _)
  -- the tasks
  | @begin id task htask hpc =>
      have hnone : s.calls id = none := h.calls_eq_none htask (by rw [hpc]; simp)
      have hmoved : Owned { s with loop := s.loop.setPc id task .running } :=
        h.setPc htask hnone rfl rfl (fun _ _ c _ hc => ⟨c, hc, rfl⟩) (by simp)
      have hset : (s.loop.setPc id task .running).tasks id = some { task with pc := .running } :=
        EpollWorker.State.tasks_setPc_self
      exact hmoved.setCall hset rfl (fun ssl hcall => absurd (hnone.symm.trans hcall) (by simp))
        (holds_of_none rfl)
  | @handle id task result unread htask hpc _ =>
      refine (h.leave hallows).setPc htask (Function.update_self _ _ _) rfl rfl
        (fun fd ssl c _ hc => keepsSerials_setSocket s.loop task.fd _ fd c hc) fun hnext => ?_
      cases result <;> simp [HandlerResult.next] at hnext
  | @freeSsl id task htask hpc =>
      have hnone : s.calls id = none := h.calls_eq_none htask (by rw [hpc]; simp)
      have hbeside : s.beside (.freeSsl id) = s.cleanUp task.fd := by
        simp only [State.beside, htask]
      have hloop := loop_cleanUp s task.fd
      rw [hbeside]
      refine (h.cleanUp hone htask hpc).setPc (hloop ▸ htask)
        ((congrFun (calls_cleanUp s task.fd) id).trans hnone) (by rw [hloop]) (by rw [hloop])
        (fun _ _ c _ hc => ⟨c, hloop ▸ hc, rfl⟩) fun _ => sslMap_cleanUp task.fd
  | @ctlDel id task htask hpc =>
      have hnone : s.calls id = none := h.calls_eq_none htask (by rw [hpc]; simp)
      exact h.setPc htask hnone rfl rfl
        (fun fd ssl c _ hc => keepsSerials_setRegistered s.loop task.fd false fd c hc)
        fun _ => h.cleaned id task htask (Or.inl hpc)
  | @close id task htask hpc =>
      have hnone : s.calls id = none := h.calls_eq_none htask (by rw [hpc]; simp)
      have hclean := h.cleaned id task htask (Or.inr hpc)
      refine @Owned.setPc _ h { s.loop with conns := Function.update s.loop.conns task.fd none }
        id task .unmapping htask hnone rfl rfl (fun fd ssl c hentry hc => ⟨c, ?_, rfl⟩) (by simp)
      -- the fd that is closed has no entry
      have hfd : fd ≠ task.fd := by
        rintro rfl
        exact absurd (hclean.symm.trans hentry) (by simp)
      exact (Function.update_of_ne hfd _ _).trans hc
  | @mapErase id task htask hpc =>
      have hnone : s.calls id = none := h.calls_eq_none htask (by rw [hpc]; simp)
      exact @Owned.setPc _ h
        { s.loop with clientMapPort := Function.update s.loop.clientMapPort task.fd none }
        id task .releasing htask hnone rfl rfl (fun _ _ c _ hc => ⟨c, hc, rfl⟩) (by simp)
  | release htask hpc => exact h.release htask hpc

end

/-! ## Every run -/

/-- Neither the insertion into `ssl_map` throws, nor does an access to the map meet
an erase of another task. -/
def Sound : Action → Prop
  | .call _ .insertFails => False
  | .collide _ _ => False
  | _ => True

instance : DecidablePred Sound
  | .call _ .insertFails => inferInstanceAs (Decidable False)
  | .collide _ _ => inferInstanceAs (Decidable False)
  | .loop _ => inferInstanceAs (Decidable True)
  | .call _ (.dispatch _) | .call _ (.plain _) | .call _ .lookup | .call _ (.accept _)
  | .call _ (.read _) | .call _ .write | .call _ (.answered _) | .call _ (.throws _)
  | .call _ .free | .call _ .erased => inferInstanceAs (Decidable True)

theorem erases_of_object {pc : CallPc} {ssl : ℕ} (h : pc.object = some (ssl, 0)) :
    pc.erases = false := by
  cases pc <;> first | rfl | simp [CallPc.object] at h

/-- Every step in which the fds have one task each keeps the invariant. -/
theorem Owned.step {P : Params} {s next : State} {a : Action} (h : Owned s)
    (hone : OneTaskPerFd s.loop) (hsound : Sound a) (hstep : Step P s a next) : Owned next := by
  cases hstep with
  | loop hallows hloop => exact h.loop hone hallows hloop
  | move htask hcall hpc hobject => exact h.move htask hcall hpc hobject
  | @use id ssl task pc pc' event htask hcall hpc hobject =>
      obtain ⟨t, ht, -, hholds⟩ := h.call id pc hcall
      obtain ⟨-, o, ho, hfreed⟩ := hholds ssl 0 hpc
      rw [use_eq ho hfreed]
      exact h.move htask hcall (erases_of_object hpc) hobject
  | @find id ssl task htask hcall hentry =>
      obtain ⟨t, ht, hrunning, -⟩ := h.call id .looking hcall
      obtain rfl := Option.some.inj (htask.symm.trans ht)
      obtain ⟨o, -, ho, -, -, hfreed | ⟨other, t, ht, hfd, herasing⟩⟩ := h.entry task.fd ssl hentry
      · rw [use_eq ho hfreed]
        refine h.setCall htask hrunning (ne_erasing hcall rfl) fun ssl' freed hobject => ?_
        obtain ⟨rfl, rfl⟩ : ssl = ssl' ∧ 0 = freed := by simpa [CallPc.object] using hobject
        exact ⟨hentry, o, ho, hfreed⟩
      -- nobody else is in the erase of this fd
      · obtain rfl := hone other id t task ht htask hfd
        exact absurd (hcall.symm.trans herasing) (by simp)
  | @create id task c htask hcall hentry hconn =>
      obtain ⟨t, ht, hrunning, -⟩ := h.call id .looking hcall
      obtain rfl := Option.some.inj (htask.symm.trans ht)
      refine (h.create hone htask hrunning hentry hconn).setCall htask hrunning
        (ne_erasing hcall rfl) fun ssl freed hobject => ?_
      obtain ⟨rfl, rfl⟩ : s.nextObject = ssl ∧ 0 = freed := by simpa [CallPc.object] using hobject
      exact ⟨by simp [State.insert], ⟨c.serial, 0, false⟩, by simp [State.create, State.insert], rfl⟩
  | lose _ _ => exact absurd hsound (by simp [Sound])
  | free htask hcall => exact h.free hone htask hcall
  | erase htask hcall => exact h.erase hone htask hcall
  | collide => exact absurd hsound (by simp [Sound])

/-- The runs in which every fd has at most one task at a time, and every step is sound. -/
def SingleSound (s : State) (a : Action) : Prop :=
  OneTaskPerFd s.loop ∧ Sound a

theorem reachable_owned {P : Params} {s : State} (h : (system P).Reachable SingleSound s) :
    Owned s := by
  refine @Transition.System.Reachable.invariant _ _ (system P) SingleSound Owned ?_ ?_ s h
  · rintro _ rfl
    exact owned_start
  · exact fun _ _ _ hguard hstep howned => howned.step hguard.1 hguard.2 (step_of_next hstep)

/-! ## Runs on one site -/

/-- The numbers of the tasks are below the next one. -/
def FreshTasks (loop : EpollWorker.State) : Prop :=
  ∀ id t, loop.tasks id = some t → id < loop.nextTask

/-- `OneTaskPerFd` where the tasks have been numbered. -/
def OneNumberedTaskPerFd (loop : EpollWorker.State) : Prop :=
  ∀ i < loop.nextTask, ∀ j < loop.nextTask, ∀ t ∈ loop.tasks i, ∀ u ∈ loop.tasks j,
    t.fd = u.fd → i = j

instance (loop : EpollWorker.State) : Decidable (OneNumberedTaskPerFd loop) :=
  inferInstanceAs (Decidable (∀ i < loop.nextTask, ∀ j < loop.nextTask, ∀ t ∈ loop.tasks i,
    ∀ u ∈ loop.tasks j, t.fd = u.fd → i = j))

theorem oneTaskPerFd_of_numbered {loop : EpollWorker.State} (hfresh : FreshTasks loop)
    (h : OneNumberedTaskPerFd loop) : OneTaskPerFd loop :=
  fun i j t u ht hu => h i (hfresh i t ht) j (hfresh j u hu) t ht u hu

theorem FreshTasks.setPc {loop base : EpollWorker.State} (h : FreshTasks loop) {id : ℕ}
    {task : Task} (htask : loop.tasks id = some task) (htasks : base.tasks = loop.tasks)
    (hnext : base.nextTask = loop.nextTask) (pc : TaskPc) : FreshTasks (base.setPc id task pc) := by
  intro other t ht
  change other < base.nextTask
  rw [hnext]
  rcases EpollWorker.State.tasks_setPc ht with ⟨rfl, -⟩ | ⟨-, ht⟩
  · exact h other task htask
  · exact h other t (htasks ▸ ht)

theorem FreshTasks.step {P : Params} {loop next : EpollWorker.State} {a : EpollWorker.Action}
    (h : FreshTasks loop) (hstep : EpollWorker.Step P loop a next) : FreshTasks next := by
  cases hstep with
  | enqueue _ =>
      intro id t ht
      change id < loop.nextTask + 1
      by_cases hid : id = loop.nextTask
      · omega
      · have hlt := h id t (by simpa [hid] using ht)
        omega
  | @release id task _ _ =>
      intro other t ht
      by_cases hid : other = id
      · simp [hid] at ht
      · exact h other t (by simpa [hid] using ht)
  | begin htask _ | freeSsl htask _ | handle htask _ _ | ctlDel htask _ =>
      exact h.setPc htask rfl rfl _
  | @close id task htask _ =>
      exact @FreshTasks.setPc _ { loop with conns := Function.update loop.conns task.fd none } h
        id task htask rfl rfl _
  | @mapErase id task htask _ =>
      exact @FreshTasks.setPc _
        { loop with clientMapPort := Function.update loop.clientMapPort task.fd none } h
        id task htask rfl rfl _
  | _ => exact h

theorem freshTasks_next {P : Params} {s s' : State} {a : Action} (hstep : next P s a = some s')
    (h : FreshTasks s.loop) : FreshTasks s'.loop := by
  cases step_of_next hstep with
  | loop _ hloop => exact h.step hloop
  | _ => exact h

/-- A list of labels is a run of the system; the guard is one that can be evaluated. -/
theorem reachable_of_numbered {P : Params} {guard : State → Action → Prop} {good : Action → Prop}
    (hguard : ∀ s a, OneTaskPerFd s.loop → good a → guard s a) {labels : List Action} {s : State}
    (hexec : (system P).exec start labels = some s)
    (hpermits : (system P).Permits (fun s a => OneNumberedTaskPerFd s.loop ∧ good a) start labels) :
    (system P).Reachable guard s := by
  refine (Transition.System.Reachable.initial rfl).exec (hpermits.mono_of_invariant
    (fun _ _ _ hstep => freshTasks_next hstep) (fun s a hfresh hgood => ?_) ?_) hexec
  · exact hguard s a (oneTaskPerFd_of_numbered hfresh hgood.1) hgood.2
  · intro id t ht
    exact absurd ht (by simp [start, EpollWorker.start])

/-- A client whose first bytes begin a handshake is taken up by the task `id`. -/
def helloSteps (id : ℕ) : List EpollWorker.Action :=
  EpollWorker.acceptAs 5 ++ [.arrive 5 [0x16, 3, 1]] ++ EpollWorker.enqueueFor 5 ++ [.begin id]

/-- The handler has returned false, and the worker closes the connection. -/
def closeSteps (id : ℕ) : List EpollWorker.Action :=
  [.handle id .drop [], .freeSsl id, .ctlDel id, .close id, .mapErase id, .release id]

/-- The insertion throws `bad_alloc`: the handler catches it and returns false, and the
worker finds no entry. -/
def lostRun : List Action :=
  (helloSteps 0).map .loop ++ [.call 0 (.dispatch true), .call 0 .insertFails] ++
    (closeSteps 0).map .loop

theorem lostRun_object :
    ((system EpollWorker.oneSite).exec start lostRun).map (fun s => (s.objects 0, s.loop.conns 5)) =
      some (some ⟨0, 0, false⟩, none) := by
  decide +kernel

theorem lostRun_sslMap :
    ((system EpollWorker.oneSite).exec start lostRun).map (fun s => s.sslMap) =
      some fun _ => none := by
  rfl

/-- Without the condition an object can be lost: its connection is closed, it has no
entry, and it has not been freed. -/
theorem object_lost_when_insert_throws :
    ¬ ∀ (P : Params) (s : State),
      (system P).Reachable (fun s _ => OneTaskPerFd s.loop) s → Lifetime s := by
  intro h
  obtain ⟨s, hexec, hobject⟩ := Option.map_eq_some_iff.mp lostRun_object
  obtain ⟨s', hexec', hmap⟩ := Option.map_eq_some_iff.mp lostRun_sslMap
  obtain rfl := Option.some.inj (hexec.symm.trans hexec')
  have hreach : (system EpollWorker.oneSite).Reachable (fun s _ => OneTaskPerFd s.loop) s :=
    reachable_of_numbered (fun _ _ hone _ => hone) hexec
      (show (system EpollWorker.oneSite).Permits
        (fun s _ => OneNumberedTaskPerFd s.loop ∧ True) start lostRun by decide +kernel)
  obtain ⟨fd, c, hentry, -⟩ := (h EpollWorker.oneSite s hreach).kept 0 ⟨0, 0, false⟩
    (Prod.mk.inj hobject).1 rfl
  rw [hmap] at hentry
  exact absurd hentry (by simp)

/-- **SSL object lifetime.**  In every run with at most one task per fd in which no
insertion into `ssl_map` throws and no access to the map meets an erase of another task,
whatever the calls return: every object is freed at most once, and exactly once when its
connection has been closed; none is used or looked up after that; only an open fd has an
entry, and the entry is an object of this very connection. -/
theorem ssl_lifetime (P : Params) (s : State) (h : (system P).Reachable SingleSound s) :
    Lifetime s :=
  (reachable_owned h).lifetime

/-- A visit over TLS without keep-alive, and a second client that gets the same fd. -/
def visitRun : List Action :=
  (helloSteps 0).map .loop ++
    [.call 0 (.dispatch true), .call 0 .lookup, .call 0 (.accept .done),
      .call 0 (.read (.data ⟨headerEnd, by decide, by decide⟩)), .call 0 .write,
      .call 0 (.answered false), .call 0 .free, .call 0 .erased] ++
    (closeSteps 0).map .loop ++ (helloSteps 1).map .loop ++
    [.call 1 (.dispatch true), .call 1 .lookup]

theorem ssl_lifetime_two_visits :
    ∃ s, (system EpollWorker.oneSite).exec start visitRun = some s ∧
      s.objects 0 = some ⟨0, 1, false⟩ ∧ s.objects 1 = some ⟨1, 0, false⟩ ∧
      s.sslMap 5 = some 1 ∧ Lifetime s := by
  have hrun : ((system EpollWorker.oneSite).exec start visitRun).map
      (fun s => (s.objects 0, s.objects 1, s.sslMap 5)) =
      some (some ⟨0, 1, false⟩, some ⟨1, 0, false⟩, some 1) := by
    decide +kernel
  obtain ⟨s, hexec, hs⟩ := Option.map_eq_some_iff.mp hrun
  obtain ⟨hfirst, hs⟩ := Prod.mk.inj hs
  obtain ⟨hsecond, hentry⟩ := Prod.mk.inj hs
  refine ⟨s, hexec, hfirst, hsecond, hentry, ssl_lifetime EpollWorker.oneSite s ?_⟩
  exact reachable_of_numbered (fun _ _ hone hsound => ⟨hone, hsound⟩) hexec
    (show (system EpollWorker.oneSite).Permits
      (fun s a => OneNumberedTaskPerFd s.loop ∧ Sound a) start visitRun by decide +kernel)

end Sok.Tls
