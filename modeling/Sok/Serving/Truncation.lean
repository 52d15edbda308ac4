import Sok.Http.RequestLine

/-!
# Truncated requests

`handle_http` leaves its loop when the blank line has come, when the connection has ended,
and on an error; of the two last it tells apart only EAGAIN.  So a request that was cut off
is executed like a complete one, if only it has three words.  `handle_https` returns when its
read returns 0.
-/

namespace Sok.HttpUtil

open Words (words)

/-- Reading ends with the connection, or with an error that is not EAGAIN, before the blank line
has come. -/
def Truncated (recvs : List RecvResult) : Prop :=
  (readLoop .again [] recvs).stop = some .eof ∨ (readLoop .again [] recvs).stop = some .error

/-- No file is opened, the response tells nothing about the request, and the connection is not
kept. -/
def NotExecuted (run : HandlerRun RecvStop) : Prop :=
  run.opened = [] ∧ (∀ r ∈ run.response, ¬ r.Executed) ∧ ∀ b ∈ run.returned, b = false

section

variable {recvs : List RecvResult}

theorem Truncated.answers (h : Truncated recvs) : Answers recvs := by
  intro hstop
  rcases h with h | h <;> exact absurd (h.symm.trans hstop) (by decide)

/-- A response without a file that neither tells about the request nor keeps the connection. -/
theorem notExecuted_of_response {env : Env} {site : SiteInfo} (writes : List WriteResult)
    (hanswers : Answers recvs) {r : Response}
    (hr : (answer env site (received recvs)).response = some r) (hexecuted : ¬ r.Executed)
    (hfile : r.filePath = []) (hkeep : r.keepAlive = false) :
    NotExecuted (handleHttp env site recvs writes) := by
  refine ⟨?_, ?_, returned_of_not_keepAlive writes hanswers hr hkeep⟩
  · rw [handleHttp_answers env site writes hanswers hr, List.eq_nil_iff_forall_not_mem]
    intro file hmem
    exact (opened_sendHttpResponse hmem).2 hfile
  · intro other hother
    rw [handleHttp_answers env site writes hanswers hr] at hother
    obtain rfl := Option.some.inj hother
    exact hexecuted

end

/-! ## A request cut off -/

/-- `GET / HTTP/1.1`, and then the end of the connection. -/
def cutOff : List RecvResult :=
  [.data ⟨ascii "GET / HTTP/1.1", by decide, by decide⟩, .stop .eof]

/-- A truncated request is executed unless it has less than three words, or names a file on which
the cache throws. -/
theorem notExecuted_iff (env : Env) (site : SiteInfo) {recvs : List RecvResult}
    (writes : List WriteResult) (h : Truncated recvs) :
    NotExecuted (handleHttp env site recvs writes) ↔
      (words isSpace (received recvs)).length < 3 ∨ CacheThrows env site (received recvs) := by
  rw [← malformed_iff]
  constructor
  · rintro ⟨-, hresponse, -⟩
    by_contra hnot
    rw [not_or] at hnot
    obtain ⟨r, hr, hexecuted, -⟩ := exists_executed hnot.1 hnot.2
    rw [handleHttp_answers env site writes h.answers hr] at hresponse
    exact hresponse r rfl hexecuted
  · rintro (hmal | hthrows)
    · refine notExecuted_of_response writes h.answers (response_of_malformed hmal) ?_ rfl rfl
      simp [Response.Executed, Response.badRequest]
    · refine notExecuted_of_response writes h.answers (response_of_cacheThrows hthrows) ?_ rfl rfl
      simp [Response.Executed, Response.serverError]

theorem notExecuted_cutOff :
    Truncated cutOff ∧
      (NotExecuted (handleHttp pages shop cutOff []) ↔
        (words isSpace (received cutOff)).length < 3 ∨
          CacheThrows pages shop (received cutOff)) := by
  have htruncated : Truncated cutOff := Or.inl rfl
  exact ⟨htruncated, notExecuted_iff pages shop [] htruncated⟩

/-- The page is served before the request is there. -/
theorem cutOff_is_served :
    Truncated cutOff ∧ ¬ NotExecuted (handleHttp pages shop cutOff []) := by
  refine ⟨Or.inl rfl, fun hnot => ?_⟩
  obtain ⟨-, hresponse, -⟩ := hnot
  exact hresponse _ rfl (Or.inl rfl)

end Sok.HttpUtil
