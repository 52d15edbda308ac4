import Sok.Tls.Lifetime

/-!
# The steps of a call and the runs of the handler

`handleHttps` gives a run of `handle_https` as a whole, with what it does to the entry of
its fd.  Every such run is a sequence of steps of the call here, from the block on
`ssl_map` on, that returns the same value and leaves an entry if and only if the run does.

The assumption of one task per fd is what the marks in `working_fds` provide.
-/

namespace Sok.Tls

open EpollWorker (HandlerResult NoStaleRelease Params Task)

/-! ## The first byte -/

theorem bind_head_of_hello_eq_none {s : State} {fd : Fd} (h : s.hello fd = none) :
    ((s.loop.conns fd).bind fun c => c.socket.unread.head?) ≠ some 0x16 := by
  intro hhead
  obtain ⟨c, hc, hbyte⟩ := Option.bind_eq_some_iff.mp hhead
  rw [State.hello, hc, Option.filter_some, hbyte] at h
  exact absurd h (by simp)

/-- An SSL object is created for every fd without an entry whose first byte is right. -/
theorem created_of_peek (env : Env) (site : SiteInfo) {results : HttpsUtil.TlsResults}
    (h : results.peek = some 0x16) :
    (HttpsUtil.handleHttps env site false results).created = true := by
  have hpeek : (!false && results.peek != some 0x16) = false := by simp [h]
  simp only [HttpsUtil.handleHttps, hpeek, Bool.false_eq_true, if_false]
  cases results.accept with
  | want => rfl
  | error => rfl
  | done =>
      simp only [HttpsUtil.serve]
      split
      · rfl
      · split
        · rfl
        · split <;> rfl

/-! ## Steps of one call -/

section

variable {P : Params} {id : ℕ} {task : Task}

/-- Steps of the call lead from the state to one with the property. -/
def Leads (P : Params) (id : ℕ) (s : State) (goal : State → Prop) : Prop :=
  ∃ (events : List Event) (final : State),
    (system P).exec s (events.map (.call id)) = some final ∧ goal final

theorem leads_refl {s : State} {goal : State → Prop} (h : goal s) : Leads P id s goal :=
  ⟨[], s, rfl, h⟩

theorem leads_step {s next : State} {pc : CallPc} {goal : State → Prop} (event : Event)
    (htask : s.loop.tasks id = some task) (hcall : s.calls id = some pc)
    (hstep : callStep s id task pc event = some next) (h : Leads P id next goal) :
    Leads P id s goal := by
  obtain ⟨events, final, hexec, hgoal⟩ := h
  refine ⟨event :: events, final, ?_, hgoal⟩
  have hnext : (system P).step s (.call id event) = some next := by
    simp only [system, Tls.next, htask, hcall, hstep]
  rw [List.map_cons, Transition.System.exec, hnext, Option.bind_some]
  exact hexec

/-- The call has returned, and the fd has an entry or not. -/
def Returned (id : ℕ) (fd : Fd) (keep entry : Bool) (nextObject : ℕ) (s : State) : Prop :=
  s.calls id = some (.returned (if keep then .keepAlive else .drop)) ∧
    (s.sslMap fd).isSome = entry ∧ s.nextObject = nextObject

/-! ## The parts of handle_https -/

theorem leads_dropping {s : State} {ssl : ℕ} (htask : s.loop.tasks id = some task)
    (hcall : s.calls id = some (.dropping ssl)) :
    Leads P id s (Returned id task.fd false false s.nextObject) := by
  have herasing : ((s.free ssl).setCall id (.erasing ssl)).calls id = some (.erasing ssl) := by
    simp [State.setCall]
  refine leads_step .free htask hcall rfl (leads_step .erased htask herasing rfl (leads_refl ?_))
  exact ⟨by simp [State.setCall], by simp [State.setCall, State.erase], rfl⟩

theorem leads_answering {s : State} {ssl : ℕ} (keep : Bool) (htask : s.loop.tasks id = some task)
    (hcall : s.calls id = some (.answering ssl)) (hentry : (s.sslMap task.fd).isSome = true) :
    Leads P id s (Returned id task.fd keep keep s.nextObject) := by
  cases keep with
  | true =>
      refine leads_step (.answered true) htask hcall rfl (leads_refl ?_)
      exact ⟨by simp [State.setCall], hentry, rfl⟩
  | false =>
      have hdropping : (s.setCall id (.dropping ssl)).calls id = some (.dropping ssl) := by
        simp [State.setCall]
      have hdrop : Leads P id (s.setCall id (.dropping ssl))
          (Returned id task.fd false false s.nextObject) := leads_dropping htask hdropping
      exact leads_step (.answered false) htask hcall rfl hdrop

/-- Where the read loop goes on. -/
def stopTo (ssl : ℕ) : Option SslReadStop → CallPc
  | some .closed => .dropping ssl
  | some .want => .returned .keepAlive
  | some .error => .answering ssl
  | none => .answering ssl

theorem leads_reading (results : List SslReadResult) {s : State} {ssl : ℕ} {request : Bytes}
    {goal : State → Prop} (htask : s.loop.tasks id = some task)
    (hcall : s.calls id = some (.reading ssl request))
    (hgoal : ∀ final : State, final.loop = s.loop → final.sslMap = s.sslMap →
      final.nextObject = s.nextObject →
      final.calls id = some (stopTo ssl (readLoop .want request results).stop) →
      Leads P id final goal) :
    Leads P id s goal := by
  induction results generalizing s request with
  | nil =>
      refine leads_step (.read (.stop .want)) htask hcall rfl (hgoal _ rfl rfl rfl ?_)
      simp [State.setCall, readTo, readLoop, stopTo]
  | cons result results ih =>
      have hset : ∀ pc, ((s.use ssl).setCall id pc).calls id = some pc := by
        simp [State.setCall]
      cases result with
      | stop reason =>
          refine leads_step (.read (.stop reason)) htask hcall rfl (hgoal _ rfl rfl rfl ?_)
          rw [hset, readLoop]
          cases reason <;> rfl
      | data block =>
          refine leads_step (.read (.data block)) htask hcall rfl ?_
          by_cases hend : headerEnd <:+: request ++ block.bytes
          · refine hgoal _ rfl rfl rfl ?_
            rw [hset, readLoop, readTo, if_pos hend, if_pos hend, stopTo]
          · rw [readTo, if_neg hend]
            refine ih htask (hset _) fun final hloop hmap hnext hfinal => ?_
            rw [readLoop, if_neg hend] at hgoal
            exact hgoal final hloop hmap hnext hfinal

theorem leads_serve (env : Env) (site : SiteInfo) (results : HttpsUtil.TlsResults)
    (created : Bool) {s : State} {ssl : ℕ} {answer : Bool} (htask : s.loop.tasks id = some task)
    (hcall : s.calls id = some (.reading ssl [])) (hentry : (s.sslMap task.fd).isSome = true)
    (hreturned : (HttpsUtil.serve env site results created).run.returned = some answer) :
    Leads P id s (Returned id task.fd answer (HttpsUtil.serve env site results created).entry
      s.nextObject) := by
  refine leads_reading results.reads htask hcall fun final hloop hmap hnext hfinal => ?_
  have htask_final : final.loop.tasks id = some task := hloop ▸ htask
  have hentry_final : (final.sslMap task.fd).isSome = true := hmap ▸ hentry
  rw [← hnext]
  unfold HttpsUtil.serve at hreturned ⊢
  by_cases hclosed : (readLoop .want [] results.reads).stop = some .closed
  · simp only [hclosed, if_true] at hreturned ⊢
    obtain rfl := Option.some.inj hreturned
    rw [hclosed] at hfinal
    exact leads_dropping htask_final hfinal
  by_cases hwant : (readLoop .want [] results.reads).stop = some .want
  · simp only [hwant, reduceCtorEq, Option.some.injEq, if_true, if_false] at hreturned ⊢
    obtain rfl := Option.some.inj hreturned
    rw [hwant] at hfinal
    exact leads_refl ⟨hfinal, hentry_final, rfl⟩
  · have hanswering : final.calls id = some (.answering ssl) := by
      rw [hfinal]
      rcases hstop : (readLoop .want [] results.reads).stop with _ | _ | _ | _
      · rw [hstop, stopTo]
      · exact absurd hstop hclosed
      · exact absurd hstop hwant
      · rw [hstop, stopTo]
    rw [if_neg hclosed, if_neg hwant] at hreturned ⊢
    cases hr : (HttpsUtil.answer env site (readLoop .want [] results.reads).request).response with
    | none =>
        simp only [hr] at hreturned ⊢
        obtain rfl := Option.some.inj hreturned
        refine leads_step (.throws false) htask_final hanswering rfl (leads_refl ?_)
        exact ⟨by simp [State.setCall, thrown], hentry_final, rfl⟩
    | some r =>
        simp only [hr] at hreturned ⊢
        rw [hreturned]
        cases answer with
        | true => exact leads_answering true htask_final hanswering hentry_final
        | false => exact leads_answering false htask_final hanswering hentry_final

theorem leads_accepting (env : Env) (site : SiteInfo) (results : HttpsUtil.TlsResults)
    {s : State} {ssl : ℕ} {hasEntry answer : Bool} (htask : s.loop.tasks id = some task)
    (hcall : s.calls id = some (.accepting ssl)) (hentry : (s.sslMap task.fd).isSome = true)
    (hpeek : (!hasEntry && results.peek != some 0x16) = false)
    (hreturned : (HttpsUtil.handleHttps env site hasEntry results).run.returned = some answer) :
    Leads P id s (Returned id task.fd answer
      (HttpsUtil.handleHttps env site hasEntry results).entry s.nextObject) := by
  have hset : ∀ pc, ((s.use ssl).setCall id pc).calls id = some pc := by
    simp [State.setCall]
  refine leads_step (.accept results.accept) htask hcall rfl ?_
  unfold HttpsUtil.handleHttps at hreturned ⊢
  simp only [hpeek, Bool.false_eq_true, if_false] at hreturned ⊢
  cases haccept : results.accept with
  | want =>
      simp only [haccept] at hreturned ⊢
      obtain rfl := Option.some.inj hreturned
      exact leads_refl ⟨hset _, hentry, rfl⟩
  | error =>
      simp only [haccept] at hreturned ⊢
      obtain rfl := Option.some.inj hreturned
      exact leads_refl ⟨hset _, hentry, rfl⟩
  | done =>
      simp only [haccept] at hreturned ⊢
      exact leads_serve env site results _ htask (hset _) hentry hreturned

/-- Every run of `handle_https` that returns is a sequence of steps of the call.  It
returns the same value, and the fd has an entry behind it if and only if it has one
behind the run; an object is created if and only if the run creates one. -/
theorem leads_handleHttps (env : Env) (site : SiteInfo) (results : HttpsUtil.TlsResults)
    {s : State} {answer : Bool} (htask : s.loop.tasks id = some task)
    (hcall : s.calls id = some .looking)
    (hpeek : results.peek = (s.loop.conns task.fd).bind fun c => c.socket.unread.head?)
    (hreturned : (HttpsUtil.handleHttps env site (s.sslMap task.fd).isSome results).run.returned =
      some answer) :
    Leads P id s (Returned id task.fd answer
      (HttpsUtil.handleHttps env site (s.sslMap task.fd).isSome results).entry
      (s.nextObject +
        (HttpsUtil.handleHttps env site (s.sslMap task.fd).isSome results).created.toNat)) := by
  cases hentry : s.sslMap task.fd with
  | some ssl =>
      rw [hentry, Option.isSome_some] at hreturned
      rw [Option.isSome_some, HttpsUtil.created_handleHttps, Bool.toNat_false, Nat.add_zero]
      have hstep : callStep s id task .looking .lookup =
          some ((s.use ssl).setCall id (.accepting ssl)) := by
        simp only [callStep, hentry]
      refine leads_step .lookup htask hcall hstep ?_
      have haccepting : Leads P id ((s.use ssl).setCall id (.accepting ssl))
          (Returned id task.fd answer (HttpsUtil.handleHttps env site true results).entry
            s.nextObject) :=
        leads_accepting env site results htask (Function.update_self _ _ _)
          (by simp [State.setCall, State.use, hentry]) rfl hreturned
      exact haccepting
  | none =>
      rw [hentry, Option.isSome_none] at hreturned
      rw [Option.isSome_none]
      cases hhello : s.hello task.fd with
      | none =>
          have hrefused : results.peek ≠ some 0x16 := by
            rw [hpeek]
            exact bind_head_of_hello_eq_none hhello
          have hstep : callStep s id task .looking .lookup =
              some (s.setCall id (.returned .drop)) := by
            simp only [callStep, hentry, hhello]
          simp only [HttpsUtil.handleHttps, hrefused, Bool.not_false, Bool.true_and, bne_iff_ne,
            ne_eq, not_false_eq_true, if_true] at hreturned ⊢
          obtain rfl := Option.some.inj hreturned
          refine leads_step .lookup htask hcall hstep (leads_refl ⟨?_, ?_, rfl⟩)
          · simp [State.setCall]
          · simp [State.setCall, hentry]
      | some c =>
          have hhandshake : results.peek = some 0x16 := by
            rw [hpeek, conn_of_hello hhello]
            exact (Option.filter_eq_some_iff.mp hhello).2 |> eq_of_beq
          have hstep : callStep s id task .looking .lookup =
              some (((s.create c.serial).insert task.fd s.nextObject).setCall id
                (.accepting s.nextObject)) := by
            simp only [callStep, hentry, hhello]
          rw [created_of_peek env site hhandshake, Bool.toNat_true]
          refine leads_step .lookup htask hcall hstep ?_
          have haccepting : Leads P id (((s.create c.serial).insert task.fd s.nextObject).setCall id
              (.accepting s.nextObject)) (Returned id task.fd answer
                (HttpsUtil.handleHttps env site false results).entry (s.nextObject + 1)) :=
            leads_accepting env site results htask (Function.update_self _ _ _)
              (by simp [State.setCall, State.insert]) (by simp [hhandshake]) hreturned
          exact haccepting

end

/-! ## One task per fd -/

/-- The main thread never erases the mark of a task, and every step is sound. -/
def MarkedSound (s : State) (a : Action) : Prop :=
  (∀ b, a = .loop b → NoStaleRelease s.loop b) ∧ Sound a

/-- The marks provide what the lifetime of the objects assumes. -/
theorem reachable_singleSound {P : Params} {s : State}
    (h : (system P).Reachable MarkedSound s) :
    EpollWorker.Marked s.loop ∧ (system P).Reachable SingleSound s := by
  induction h with
  | @initial s hinit =>
      obtain rfl : s = start := hinit
      exact ⟨EpollWorker.marked_start, .initial rfl⟩
  | @step s next a _ hguard hstep ih =>
      obtain ⟨hmarked, hreach⟩ := ih
      refine ⟨?_, hreach.step ⟨hmarked.task_unique, hguard.2⟩ hstep⟩
      have hcases : Step P s a next := step_of_next hstep
      cases hcases with
      | loop _ hloop => exact hmarked.step (hguard.1 _ rfl) hloop
      | _ => exact hmarked

theorem lifetime_of_marked {P : Params} {s : State} (h : (system P).Reachable MarkedSound s) :
    Lifetime s :=
  (reachable_owned (reachable_singleSound h).2).lifetime

end Sok.Tls
