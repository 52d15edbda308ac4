import Sok.Dispatch
import Sok.Serving.Asked

/-!
# Requests that arrive in pieces

A request without a body that arrives in segments, each over its own readiness event.
The handler keeps its buffer only for one call and asks for more by returning true,
so every event sees its own segment and nothing of those before.

Hence a split request is answered as the whole one only when all segments but the
last are taken silently, and the last one asks for the same on its own (`Resumes`).

## Strategy

First one event: what a segment gives on its own, over HTTP (`alone_silent`,
`alone_answers`) and over TLS (`handleHttps_waits`, `handleHttps_not_waits`).  Then the
events of a connection by induction on the list of arrivals, with the entry of the fd and
what the socket still holds as the state: all but the last have to be silent, since the
first reply stays the first (`replies_serve`), and since a segment that does not reach to
the end of the request has no blank line, silence is what it gives unless it is refused or
closes the connection.

At the end stands the last segment alone.  That it earns the reply for all results of the
writes is the same as that it asks for the same (`earnsReply_iff_asksFor`), which takes the
handler out of the condition.
-/

namespace Sok.Segmentation

/-! ## Events -/

/-- A segment, what the calls of `handle_https` return if its event goes there, and what OpenSSL
has not taken from the socket then. -/
structure Arrival where
  segment : Bytes
  nonempty : segment ≠ []
  tls : HttpsUtil.TlsResults
  untaken : Bytes

/-- OpenSSL takes everything that is there before it asks for more. -/
def Drained (arrivals : List Arrival) : Prop :=
  ∀ a ∈ arrivals, a.untaken = []

instance (arrivals : List Arrival) : Decidable (Drained arrivals) :=
  inferInstanceAs (Decidable (∀ a ∈ arrivals, _))

/-- What a client receives: over TLS or in the clear. -/
structure Reply where
  encrypted : Bool
  bytes : Bytes
  deriving DecidableEq

/-- The reply of a run, if it has come to one. -/
def replies : DispatchRun → List Reply
  | .refused => []
  | .http run => if run.response.isSome then [⟨false, run.wire⟩] else []
  | .https run => if run.run.response.isSome then [⟨true, run.run.wire⟩] else []

/-- What is left in the socket. -/
def leftIn (front untaken : Bytes) : DispatchRun → Bytes
  | .refused => front
  | .http run => HttpUtil.left run
  | .https _ => untaken

/-- The replies of a sequence of events, and whether the connection is kept; there is
no decision as long as a handler is still sending. -/
structure Outcome where
  replies : List Reply
  decision : Option Bool
  deriving DecidableEq

/-- The process, the port and the files. -/
structure Params where
  config : YamlReader
  port : Port
  env : Env

/-- `dispatch_protocol` with `front` in the socket. -/
def dispatch (P : Params) (writes : List WriteResult) (entry : Bool) (front : Bytes)
    (tls : HttpsUtil.TlsResults) : DispatchRun :=
  dispatchProtocol P.config P.port P.env (Socket.peek ⟨front, false⟩) entry
    ⟨Socket.results ⟨front, false⟩, writes, tls⟩

/-- One event for each segment, as long as the connection is kept. -/
def serve (P : Params) (writes : List WriteResult) : Bytes → Bool → List Arrival → Outcome
  | _, _, [] => ⟨[], some true⟩
  | unread, entry, a :: rest =>
      let front := unread ++ a.segment
      let run := dispatch P writes entry front a.tls
      match run.returned with
      | some true =>
          let later := serve P writes (leftIn front a.untaken run) (run.entryAfter entry) rest
          ⟨replies run ++ later.replies, later.decision⟩
      | decision => ⟨replies run, decision⟩

/-- The segments of `r`. -/
def Splits (arrivals : List Arrival) (r : Bytes) : Prop :=
  (arrivals.map Arrival.segment).flatten = r

instance (arrivals : List Arrival) (r : Bytes) : Decidable (Splits arrivals r) :=
  inferInstanceAs (Decidable (_ = _))

/-! ## The condition -/

/-- The calls of `handle_https` end with OpenSSL asking for more. -/
def Waits (entry : Bool) (tls : HttpsUtil.TlsResults) : Prop :=
  (entry = true ∨ tls.peek = some 0x16) ∧
    (tls.accept = .want ∨
      (tls.accept = .done ∧ (readLoop .want [] tls.reads).stop = some .want))

/-- Every segment but the last is taken silently, because it looks like the beginning
of an HTTP request or because OpenSSL asks for more, and the last one does `last`. -/
def Resumes (last : Bytes → Prop) : Bool → List Arrival → Prop
  | _, [] => False
  | _, [a] => last a.segment
  | entry, a :: b :: rest =>
      (detect a.segment = .http ∧ Resumes last entry (b :: rest)) ∨
        (detect a.segment = .https ∧ Waits entry a.tls ∧ Resumes last true (b :: rest))

/-- On its own `s` is an HTTP request with a whole header block, and asks for what `r`
asks for. -/
def AsksFor (P : Params) (site : SiteInfo) (r s : Bytes) : Prop :=
  detect s = .http ∧ headerEnd <:+: s ∧
    HttpUtil.asked P.env site s = HttpUtil.asked P.env site r

instance (P : Params) (site : SiteInfo) (r s : Bytes) : Decidable (AsksFor P site r s) :=
  inferInstanceAs (Decidable (_ ∧ _ ∧ _))

/-- `handle_http` with `s` in the socket. -/
def alone (P : Params) (site : SiteInfo) (writes : List WriteResult) (s : Bytes) :
    HandlerRun RecvStop :=
  HttpUtil.handleHttp P.env site (Socket.results ⟨s, false⟩) writes

/-- On its own `s` is answered, and as `r` is. -/
def EarnsReplyOf (P : Params) (site : SiteInfo) (r : Bytes) (writes : List WriteResult)
    (s : Bytes) : Prop :=
  detect s = .http ∧ headerEnd <:+: s ∧
    (alone P site writes s).wire = (alone P site writes r).wire ∧
    (alone P site writes s).returned = (alone P site writes r).returned

/-! ## One event -/

theorem dispatch_http {P : Params} (writes : List WriteResult) {site : SiteInfo} {s : Bytes}
    (hne : s ≠ []) (hdetect : detect s = .http) (hsite : SiteInfo.ofPort P.config P.port = .ok site)
    (entry : Bool) (tls : HttpsUtil.TlsResults) :
    dispatch P writes entry s tls = .http (alone P site writes s) := by
  rw [dispatch, Socket.peek, if_neg hne]
  exact dispatchProtocol_http (by rw [detect_take, hdetect]) hsite

theorem dispatch_https {P : Params} (writes : List WriteResult) {site : SiteInfo} {s : Bytes}
    (hne : s ≠ []) (hdetect : detect s = .https)
    (hsite : SiteInfo.ofPort P.config P.port = .ok site)
    (entry : Bool) (tls : HttpsUtil.TlsResults) :
    dispatch P writes entry s tls = .https (HttpsUtil.handleHttps P.env site entry tls) := by
  rw [dispatch, Socket.peek, if_neg hne]
  exact dispatchProtocol_https (by rw [detect_take, hdetect]) hsite

theorem dispatch_unsupported {P : Params} {writes : List WriteResult} {s : Bytes} (hne : s ≠ [])
    (hdetect : detect s = .unsupported) (entry : Bool) (tls : HttpsUtil.TlsResults) :
    dispatch P writes entry s tls = .refused := by
  rw [dispatch, Socket.peek, if_neg hne]
  exact dispatchProtocol_unsupported (by rw [detect_take, hdetect])

/-- Without a blank line the segment is taken and nothing is answered. -/
theorem alone_silent (P : Params) (site : SiteInfo) (writes : List WriteResult) {s : Bytes}
    (h : ¬ headerEnd <:+: s) :
    alone P site writes s = ⟨[], none, [], [], some true, []⟩ := by
  have hread : readLoop .again [] (Socket.results ⟨s, false⟩) = ⟨s, some .again, []⟩ :=
    readLoop_not_found (by simpa using h)
  have hsilent : ¬ HttpUtil.Answers (Socket.results ⟨s, false⟩) := by
    rw [HttpUtil.Answers, hread]
    simp
  rw [alone, HttpUtil.handleHttp_silent _ _ _ hsilent, hread]

/-- With a blank line it is answered. -/
theorem alone_answers (P : Params) (site : SiteInfo) (writes : List WriteResult) {s : Bytes}
    (h : headerEnd <:+: s) :
    (alone P site writes s).response.isSome = true := by
  obtain ⟨i, hfind⟩ := Search.exists_find h
  rw [alone, (handleHttp_found P.env site writes hfind false).1]
  obtain ⟨r, hr⟩ := HttpUtil.exists_response P.env site (s.take (blockEnd (i + 4)))
  rw [hr]
  rfl

/-- OpenSSL asks for more: nothing is answered, and the entry stays. -/
theorem handleHttps_waits (env : Env) (site : SiteInfo) {entry : Bool}
    {tls : HttpsUtil.TlsResults} (h : Waits entry tls) :
    ∃ unread, HttpsUtil.handleHttps env site entry tls =
      ⟨HttpsUtil.silent true unread, !entry, true⟩ := by
  obtain ⟨hentry, hwait⟩ := h
  have hpeek : (!entry && tls.peek != some 0x16) = false := by
    rcases hentry with hentry | hentry <;> simp [hentry]
  simp only [HttpsUtil.handleHttps, hpeek, Bool.false_eq_true, if_false]
  rcases hwait with haccept | ⟨haccept, hstop⟩
  · rw [haccept]
    exact ⟨_, rfl⟩
  · rw [haccept]
    simp only [HttpsUtil.serve, hstop]
    exact ⟨_, rfl⟩

/-- Otherwise something is answered, or the connection is closed. -/
theorem handleHttps_not_waits {env : Env} {site : SiteInfo} {entry : Bool}
    {tls : HttpsUtil.TlsResults} (h : ¬ Waits entry tls) :
    (HttpsUtil.handleHttps env site entry tls).run.response ≠ none ∨
      (HttpsUtil.handleHttps env site entry tls).run.returned = some false := by
  unfold HttpsUtil.handleHttps
  split
  · exact Or.inr rfl
  · rename_i hpeek
    have hentry : entry = true ∨ tls.peek = some 0x16 := by
      simpa [or_iff_not_imp_left] using hpeek
    cases haccept : tls.accept with
    | want => exact absurd ⟨hentry, Or.inl haccept⟩ h
    | error => exact Or.inr rfl
    | done =>
        dsimp only [HttpsUtil.serve]
        split
        · exact Or.inr rfl
        · split
          · rename_i hwant
            exact absurd ⟨hentry, Or.inr ⟨haccept, hwant⟩⟩ h
          · split
            · exact Or.inr rfl
            · exact Or.inl (by simp)

/-! ## All events -/

section

variable {P : Params} {writes : List WriteResult} {entry : Bool} {a : Arrival} {rest : List Arrival}

theorem serve_last (P : Params) (writes : List WriteResult) (entry : Bool) (a : Arrival) :
    serve P writes [] entry [a] =
      ⟨replies (dispatch P writes entry a.segment a.tls),
        (dispatch P writes entry a.segment a.tls).returned⟩ := by
  simp only [serve, List.nil_append]
  split
  · rename_i hkept
    simp [hkept]
  · rfl

theorem serve_cons_kept (hkept : (dispatch P writes entry a.segment a.tls).returned = some true) :
    serve P writes [] entry (a :: rest) =
      ⟨replies (dispatch P writes entry a.segment a.tls) ++
          (serve P writes (leftIn a.segment a.untaken (dispatch P writes entry a.segment a.tls))
            ((dispatch P writes entry a.segment a.tls).entryAfter entry) rest).replies,
        (serve P writes (leftIn a.segment a.untaken (dispatch P writes entry a.segment a.tls))
          ((dispatch P writes entry a.segment a.tls).entryAfter entry) rest).decision⟩ := by
  simp only [serve, List.nil_append, hkept]

theorem replies_serve (P : Params) (writes : List WriteResult) (entry : Bool) (a : Arrival)
    (rest : List Arrival) :
    replies (dispatch P writes entry a.segment a.tls) <+:
      (serve P writes [] entry (a :: rest)).replies := by
  simp only [serve, List.nil_append]
  split
  · exact List.prefix_append _ _
  · exact List.prefix_rfl

theorem serve_cons_closed
    (hclosed : (dispatch P writes entry a.segment a.tls).returned = some false) :
    serve P writes [] entry (a :: rest) =
      ⟨replies (dispatch P writes entry a.segment a.tls), some false⟩ := by
  simp only [serve, List.nil_append, hclosed]

/-- An event that is refused or goes to TLS and is not waited for ends what could have
been the reply of the whole request. -/
theorem serve_ne_of_refused {wire : Bytes} {decision : Option Bool}
    (hrun : dispatch P writes entry a.segment a.tls = .refused) :
    serve P writes [] entry (a :: rest) ≠ ⟨[⟨false, wire⟩], decision⟩ := by
  rw [serve_cons_closed (by rw [hrun]; rfl), hrun]
  simp [replies]

theorem serve_ne_of_https {site : SiteInfo} {wire : Bytes} {decision : Option Bool}
    (hrun : dispatch P writes entry a.segment a.tls =
      .https (HttpsUtil.handleHttps P.env site entry a.tls))
    (hwaits : ¬ Waits entry a.tls) :
    serve P writes [] entry (a :: rest) ≠ ⟨[⟨false, wire⟩], decision⟩ := by
  intro heq
  by_cases hresponse : (HttpsUtil.handleHttps P.env site entry a.tls).run.response = none
  · have hclosed := (handleHttps_not_waits hwaits).resolve_left (not_not.mpr hresponse)
    rw [serve_cons_closed (by rw [hrun]; exact hclosed), hrun] at heq
    simp [replies, hresponse] at heq
  · have hfirst := replies_serve P writes entry a rest
    have hsome := Option.isSome_iff_ne_none.mpr hresponse
    rw [heq, hrun] at hfirst
    simp [replies, hsome] at hfirst

end

/-- A piece of the request that does not reach to its end has no blank line. -/
theorem not_infix_of_piece {r segment more : Bytes} (hr : IsHeader r) (hmore : more ≠ [])
    (hpiece : segment ++ more <:+ r) : ¬ headerEnd <:+: segment := by
  obtain ⟨front, rfl⟩ := hpiece
  intro hoccurs
  have hpos := List.length_pos_of_ne_nil hmore
  have hshort : (front ++ segment).length < (front ++ (segment ++ more)).length - 4 + 4 := by
    rw [hr.four_le]
    simp only [List.length_append]
    omega
  refine Search.not_infix_take_of_find hr hshort ?_
  rw [← List.append_assoc, List.take_left]
  exact hoccurs.trans (List.suffix_append _ _).isInfix

section

variable {P : Params} {site : SiteInfo} {writes : List WriteResult} {entry : Bool} {a : Arrival}
  {r : Bytes}

/-- A segment that looks like HTTP and has no blank line is read and forgotten. -/
theorem serve_cons_silent (hsite : SiteInfo.ofPort P.config P.port = .ok site)
    (hdetect : detect a.segment = .http) (hoccurs : ¬ headerEnd <:+: a.segment)
    (rest : List Arrival) :
    serve P writes [] entry (a :: rest) = serve P writes [] entry rest := by
  have hrun := dispatch_http writes a.nonempty hdetect hsite entry a.tls
  rw [alone_silent P site writes hoccurs] at hrun
  rw [serve_cons_kept (by rw [hrun]; rfl), hrun]
  rfl

/-- A segment that OpenSSL waits behind leaves an entry for the fd. -/
theorem serve_cons_waits (hsite : SiteInfo.ofPort P.config P.port = .ok site)
    (hdetect : detect a.segment = .https) (hwaits : Waits entry a.tls) (htaken : a.untaken = [])
    (rest : List Arrival) :
    serve P writes [] entry (a :: rest) = serve P writes [] true rest := by
  have hrun := dispatch_https writes a.nonempty hdetect hsite entry a.tls
  obtain ⟨unread, hsilent⟩ := handleHttps_waits P.env site hwaits
  rw [hsilent] at hrun
  rw [serve_cons_kept (by rw [hrun]; rfl), hrun, htaken]
  rfl

/-- The last segment has to earn the reply on its own. -/
theorem serve_last_iff (hsite : SiteInfo.ofPort P.config P.port = .ok site)
    (htaken : a.untaken = []) :
    serve P writes [] entry [a] =
        ⟨[⟨false, (alone P site writes r).wire⟩], (alone P site writes r).returned⟩ ↔
      EarnsReplyOf P site r writes a.segment := by
  cases hdetect : detect a.segment with
  | http =>
      rw [serve_last, dispatch_http writes a.nonempty hdetect hsite]
      by_cases hoccurs : headerEnd <:+: a.segment
      · simp [replies, alone_answers P site writes hoccurs, EarnsReplyOf, hdetect, hoccurs,
          DispatchRun.returned]
      · simp [replies, alone_silent P site writes hoccurs, EarnsReplyOf, hoccurs]
  | https =>
      have hearns : ¬ EarnsReplyOf P site r writes a.segment := by
        simp [EarnsReplyOf, hdetect]
      refine iff_of_false ?_ hearns
      by_cases hwaits : Waits entry a.tls
      · rw [serve_cons_waits hsite hdetect hwaits htaken]
        simp [serve]
      · exact serve_ne_of_https (dispatch_https writes a.nonempty hdetect hsite entry a.tls) hwaits
  | unsupported =>
      have hearns : ¬ EarnsReplyOf P site r writes a.segment := by
        simp [EarnsReplyOf, hdetect]
      exact iff_of_false
        (serve_ne_of_refused (dispatch_unsupported a.nonempty hdetect entry a.tls)) hearns

end

/-- The segments of the end of a request earn the reply of the whole request exactly
when they resume it. -/
theorem serve_eq_iff {P : Params} {site : SiteInfo}
    (hsite : SiteInfo.ofPort P.config P.port = .ok site) {r : Bytes} (hr : IsHeader r)
    (writes : List WriteResult) (arrivals : List Arrival) (entry : Bool) {t : Bytes}
    (hsplit : Splits arrivals t) (hdrained : Drained arrivals) (ht : t <:+ r) :
    serve P writes [] entry arrivals =
        ⟨[⟨false, (alone P site writes r).wire⟩], (alone P site writes r).returned⟩ ↔
      Resumes (EarnsReplyOf P site r writes) entry arrivals := by
  -- on the segments: those left are the end of `r`, and nothing is in the socket
  induction arrivals generalizing entry t with
  | nil => simp [serve, Resumes]
  | cons a rest ih =>
      cases rest with
      | nil => exact serve_last_iff hsite (hdrained a List.mem_cons_self)
      | cons b rest =>
          have hdrained' : Drained (b :: rest) := fun other hother =>
            hdrained other (List.mem_cons_of_mem a hother)
          have hsplit' : Splits (b :: rest) ((b :: rest).map Arrival.segment).flatten := rfl
          have htail : a.segment ++ ((b :: rest).map Arrival.segment).flatten = t := hsplit
          have hmore : ((b :: rest).map Arrival.segment).flatten ≠ [] := by
            simp [b.nonempty]
          have hpiece : ((b :: rest).map Arrival.segment).flatten <:+ r :=
            (List.suffix_append a.segment _).trans (htail ▸ ht)
          -- the only blank line of `r` is at its end, so `a` has none
          have hoccurs := not_infix_of_piece hr hmore (htail.symm ▸ ht)
          rw [Resumes]
          cases hdetect : detect a.segment with
          | http =>
              rw [serve_cons_silent hsite hdetect hoccurs, ih entry hsplit' hdrained' hpiece]
              simp
          | https =>
              by_cases hwaits : Waits entry a.tls
              · rw [serve_cons_waits hsite hdetect hwaits (hdrained a List.mem_cons_self),
                  ih true hsplit' hdrained' hpiece]
                simp [hwaits]
              · have hrun := dispatch_https writes a.nonempty hdetect hsite entry a.tls
                exact iff_of_false (serve_ne_of_https hrun hwaits) (by simp [hwaits])
          | unsupported =>
              exact iff_of_false
                (serve_ne_of_refused (dispatch_unsupported a.nonempty hdetect entry a.tls))
                (by simp)

/-- What holds of the last segment for all results of the writes can be asked of it once. -/
theorem resumes_forall {last : List WriteResult → Bytes → Prop} (entry : Bool)
    (arrivals : List Arrival) :
    (∀ writes, Resumes (last writes) entry arrivals) ↔
      Resumes (fun s => ∀ writes, last writes s) entry arrivals := by
  induction arrivals generalizing entry with
  | nil => simp [Resumes]
  | cons a rest ih =>
      cases rest with
      | nil => simp [Resumes]
      | cons b rest =>
          simp only [Resumes, ← ih]
          cases hdetect : detect a.segment with
          | http => simp
          | https => simp [forall_and]
          | unsupported => simp

/-- For the end of a request, all results of the writes together show what it asks for. -/
theorem earnsReply_iff_asksFor {P : Params} {site : SiteInfo} {r s : Bytes} (hr : IsHeader r)
    (hsuffix : s <:+ r) :
    (∀ writes, EarnsReplyOf P site r writes s) ↔ AsksFor P site r s := by
  by_cases hoccurs : headerEnd <:+: s
  · have halike := HttpUtil.alike_iff_asked_eq P.env site (hr.of_suffix hsuffix hoccurs) hr
    simp only [EarnsReplyOf, AsksFor, alone, hoccurs, true_and, forall_and] at halike ⊢
    simp [halike]
  · simp [EarnsReplyOf, AsksFor, hoccurs]

theorem resumes_congr {r : Bytes} {last last' : Bytes → Prop}
    (hlast : ∀ s, s <:+ r → (last s ↔ last' s)) (entry : Bool) (arrivals : List Arrival)
    (hend : (arrivals.map Arrival.segment).flatten <:+ r) :
    Resumes last entry arrivals ↔ Resumes last' entry arrivals := by
  induction arrivals generalizing entry with
  | nil => simp [Resumes]
  | cons a rest ih =>
      cases rest with
      | nil => exact hlast a.segment (by simpa using hend)
      | cons b rest =>
          have hrest : ((b :: rest).map Arrival.segment).flatten <:+ r :=
            (List.suffix_append a.segment _).trans hend
          simp only [Resumes, ih _ hrest]

/-- **Segmentation independence.**  A request without a body that arrives in segments, of which
OpenSSL leaves nothing in the socket, is answered once and as the whole request exactly when its
segments resume it. -/
theorem segmentation_independent_iff {P : Params} {site : SiteInfo}
    (hsite : SiteInfo.ofPort P.config P.port = .ok site) {r : Bytes} (hr : IsHeader r)
    (hhttp : detect r = .http) {whole : Arrival} (hwhole : whole.segment = r)
    {arrivals : List Arrival} (hsplit : Splits arrivals r) (hdrained : Drained arrivals) :
    (∀ writes, serve P writes [] false arrivals = serve P writes [] false [whole]) ↔
      Resumes (AsksFor P site r) false arrivals := by
  have hoccurs : headerEnd <:+: r := hr.suffix.isInfix
  have hone : ∀ writes, serve P writes [] false [whole] =
      ⟨[⟨false, (alone P site writes r).wire⟩], (alone P site writes r).returned⟩ := by
    intro writes
    rw [serve_last, dispatch_http writes whole.nonempty (hwhole ▸ hhttp) hsite, hwhole]
    simp [replies, alone_answers P site writes hoccurs, DispatchRun.returned]
  calc (∀ writes, serve P writes [] false arrivals = serve P writes [] false [whole])
      ↔ ∀ writes, Resumes (EarnsReplyOf P site r writes) false arrivals := by
        refine forall_congr' fun writes => ?_
        rw [hone, serve_eq_iff hsite hr writes arrivals false hsplit hdrained List.suffix_rfl]
    _ ↔ Resumes (fun s => ∀ writes, EarnsReplyOf P site r writes s) false arrivals :=
        resumes_forall false arrivals
    _ ↔ Resumes (AsksFor P site r) false arrivals :=
        resumes_congr (fun s hsuffix => earnsReply_iff_asksFor hr hsuffix) false arrivals
          (hsplit ▸ List.suffix_rfl)

/-! ## A request in two pieces -/

/-- A client of a process with one site. -/
def blogParams : Params := ⟨oneServer 8080 (ascii "/srv"), 8080, pages⟩

/-- A segment that does not go to OpenSSL. -/
def plain (segment : Bytes) (nonempty : segment ≠ []) : Arrival :=
  ⟨segment, nonempty, ⟨none, .error, [], []⟩, []⟩

/-- The first two bytes of a request are taken for another protocol, and the connection
is closed. -/
theorem split_request_refused :
    ¬ ∀ (P : Params) (site : SiteInfo) (r : Bytes) (whole : Arrival) (arrivals : List Arrival),
      SiteInfo.ofPort P.config P.port = .ok site → IsHeader r → detect r = .http →
      whole.segment = r → Splits arrivals r → Drained arrivals →
      ∀ writes, serve P writes [] false arrivals = serve P writes [] false [whole] := by
  intro h
  have hsame := h blogParams ⟨ascii "blog", ascii "/srv"⟩ (ascii "GET / HTTP/1.1\r\n\r\n")
    (plain (ascii "GET / HTTP/1.1\r\n\r\n") (by decide))
    [plain (ascii "GE") (by decide), plain (ascii "T / HTTP/1.1\r\n\r\n") (by decide)]
    rfl (by decide) (by decide) rfl (by decide) (by decide) [.full, .full]
  exact absurd hsame (by decide +kernel)

/-- Cut behind its first line, a POST is answered as the second line alone. -/
theorem segmentation_independent_post :
    serve blogParams [.full, .full] [] false
        [plain (ascii "POST / HTTP/1.1\r\n") (by decide),
          plain (ascii "POST / HTTP/1.1\r\n\r\n") (by decide)] =
      serve blogParams [.full, .full] [] false
        [plain (ascii "POST / HTTP/1.1\r\nPOST / HTTP/1.1\r\n\r\n") (by decide)] := by
  have hasks : AsksFor blogParams ⟨ascii "blog", ascii "/srv"⟩
      (ascii "POST / HTTP/1.1\r\nPOST / HTTP/1.1\r\n\r\n")
      (ascii "POST / HTTP/1.1\r\n\r\n") := by decide +kernel
  have hresumes : Resumes (AsksFor blogParams ⟨ascii "blog", ascii "/srv"⟩
      (ascii "POST / HTTP/1.1\r\nPOST / HTTP/1.1\r\n\r\n")) false
      [plain (ascii "POST / HTTP/1.1\r\n") (by decide),
        plain (ascii "POST / HTTP/1.1\r\n\r\n") (by decide)] :=
    Or.inl ⟨by decide, hasks⟩
  exact (segmentation_independent_iff rfl (by decide) (by decide) rfl (by decide)
    (by decide)).mpr hresumes [.full, .full]

end Sok.Segmentation
