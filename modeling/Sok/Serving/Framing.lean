import Sok.Handler

/-!
# Where a response ends

A client finds the end of a response from its `Content-Length`, or knows that
there is no body because the request was a HEAD.  `Framed` says that the bytes on
the connection agree with that, read as a client reads them.

`Content-Length` is the size of the body the handler passes to the sender, but
the sender puts a body on the connection only for the method GET, and of a static
file it sends what is in the file now.  `KeepsFraming` is the condition on the
request under which the two agree.
-/

namespace Sok.Serving

/-! ## The responses are well formed -/

theorem lf_notMem_version (request : Bytes) : lf ∉ (requestLine request).version := by
  intro hmem
  exact absurd (isSpace_of_mem_nextToken hmem) (by decide)

theorem wellFormed_badRequest (method : Bytes) : (Response.badRequest method).WellFormed :=
  ⟨(by decide : lf ∉ http11), (by decide : lf ∉ ascii "Bad Request"),
    (by decide : Trimmed textPlain), (by decide : lf ∉ textPlain)⟩

theorem wellFormed_serverError : Response.serverError.WellFormed :=
  ⟨by decide, by decide, by decide, by decide⟩

theorem wellFormed_file {version mime : Bytes} (hversion : lf ∉ version) (hlf : lf ∉ mime)
    (htrimmed : Trimmed mime) (content : Bytes) (keepAlive : Bool) (method path : Bytes) :
    (Response.file version mime content keepAlive method path).WellFormed :=
  ⟨hversion, (by decide : lf ∉ ascii "OK"), htrimmed, hlf⟩

theorem wellFormed_notFound {version : Bytes} (hversion : lf ∉ version) (keepAlive : Bool)
    (method : Bytes) : (Response.notFound version keepAlive method).WellFormed :=
  ⟨hversion, (by decide : lf ∉ ascii "Not Found"), (by decide : Trimmed textPlain),
    (by decide : lf ∉ textPlain)⟩

theorem wellFormed_echo {version : Bytes} (hversion : lf ∉ version) (body : Bytes)
    (keepAlive : Bool) (method : Bytes) :
    (Response.echo version body keepAlive method).WellFormed :=
  ⟨hversion, (by decide : lf ∉ ascii "OK"), (by decide : Trimmed textPlain),
    (by decide : lf ∉ textPlain)⟩

theorem wellFormed_notImplemented {version : Bytes} (hversion : lf ∉ version) (keepAlive : Bool)
    (method : Bytes) : (Response.notImplemented version keepAlive method).WellFormed :=
  ⟨hversion, (by decide : lf ∉ ascii "Not Implemented"), (by decide : Trimmed textPlain),
    (by decide : lf ∉ textPlain)⟩

/-- Every response to a request has a header block that a client can read. -/
theorem wellFormed_answerWith {malformed : RequestLine → Response} {thrown : Option Response}
    (hmalformed : ∀ line, (malformed line).WellFormed) (hthrown : ∀ r ∈ thrown, r.WellFormed)
    {env : Env} {site : SiteInfo} {request : Bytes} {r : Response}
    (hr : (answerWith malformed thrown env site request).response = some r) : r.WellFormed := by
  have hversion := lf_notMem_version request
  refine forall_response (wellFormed_badRequest _) (hmalformed _) ?_
    (wellFormed_notFound hversion _ _) hthrown (wellFormed_echo hversion _ _ _)
    (fun _ => wellFormed_notImplemented hversion _ _) hr
  intro _ content mime hfound
  obtain ⟨-, hlf, htrimmed⟩ := FileCache.getMimeType_fit
    (requestedFile site.rootDir (requestLine request).path)
  rw [← env.get_mime _ _ _ hfound] at hlf htrimmed
  exact wellFormed_file hversion hlf htrimmed _ _ _ _

/-! ## Counting the bytes behind the blank line -/

/-- As many bytes follow the blank line as the client expects: those announced by
`Content-Length`, and none after a HEAD. -/
def Framed (request wire : Bytes) : Prop :=
  ∃ fields payload length, readResponse wire = some (fields, payload) ∧
    fields (ascii "Content-Length") = some length ∧
    payload.length =
      if (requestLine request).method = methodHead then 0 else decimalValue length

/-- A run that answers its request answers it with a framed response. -/
def FramedRun {ε : Type} (request : Bytes) (run : HandlerRun ε) : Prop :=
  run.response ≠ none → Framed request run.wire

/-- The payload has the length of the body, or is empty after a HEAD. -/
def Counted (request : Bytes) (r : Response) (payload : Bytes) : Prop :=
  payload.length = if (requestLine request).method = methodHead then 0 else r.body.length

theorem framed_iff_counted (request : Bytes) {r : Response} (hr : r.WellFormed)
    (payload : Bytes) : Framed request (r.header ++ payload) ↔ Counted request r payload := by
  have hlength := r.contentLength_fieldMap hr
  constructor
  · rintro ⟨fields, behind, length, hread, hfield, hcount⟩
    rw [readResponse_header r hr, Option.some.injEq, Prod.mk.injEq] at hread
    obtain ⟨rfl, rfl⟩ := hread
    obtain rfl := Option.some.inj (hlength.symm.trans hfield)
    rwa [decimalValue_decimal] at hcount
  · intro hcount
    refine ⟨_, payload, _, readResponse_header r hr payload, hlength, ?_⟩
    rwa [decimalValue_decimal]

section

variable {piece : Bytes → Bytes} {openFile : Bytes → Option Bytes} {r : Response} {request : Bytes}

/-- A body that is sent is one too many only after a HEAD. -/
theorem counted_of_get (hget : r.method = methodGet) (hfile : r.filePath = [])
    (hbody : r.body ≠ []) :
    Counted request r (deliveredWith piece openFile r) ↔
      (requestLine request).method ≠ methodHead := by
  rw [deliveredWith_of_no_file hget hfile, Counted]
  by_cases hhead : (requestLine request).method = methodHead <;> simp [hhead, hbody]

/-- Of a static file, what is in the file now counts. -/
theorem counted_of_file (hget : r.method = methodGet) (hbody : r.body ≠ [])
    (hfile : r.filePath ≠ []) (hhead : (requestLine request).method ≠ methodHead) :
    Counted request r (deliveredWith piece openFile r) ↔
      ∃ file ∈ openFile r.filePath, (piece file).length = r.body.length := by
  rw [deliveredWith_of_file hget hbody hfile, Counted, if_neg hhead]
  cases openFile r.filePath with
  | none => simpa [eq_comm] using hbody
  | some file => simp

/-- A body that is not sent is missed, except after a HEAD. -/
theorem counted_of_ne_get (hget : r.method ≠ methodGet) :
    Counted request r (deliveredWith piece openFile r) ↔
      (requestLine request).method = methodHead ∨ r.body = [] := by
  rw [deliveredWith_of_ne_get hget, Counted]
  by_cases hhead : (requestLine request).method = methodHead
  · simp [hhead]
  · simp [hhead, eq_comm]

end

/-! ## The condition -/

/-- When the bytes behind the blank line are as announced.  The handlers differ in
`malformed`, what is right for a malformed request; `whole`, when the piece of an
opened file is as long as the cached content; and `silent`, whether a request on
which the cache throws is left unanswered. -/
def KeepsFraming (malformed : Bytes → Prop) (whole : Bytes → Bytes → Prop) (silent : Prop)
    (env : Env) (site : SiteInfo) (request : Bytes) : Prop :=
  request = [] ∨
    let line := requestLine request
    let path := requestedFile site.rootDir line.path
    if line.Malformed then malformed line.method
    else if line.method = methodGet then
      ∀ content mime, env.get path = .found content mime →
        ∃ file ∈ env.openFile path, whole content file
    else if line.method = methodHead then env.get path = .throws → silent
    else line.method = methodPost ∧ postBody request = []

theorem keepsFraming_get {malformed : Bytes → Prop} {whole : Bytes → Bytes → Prop} {silent : Prop}
    {env : Env} {site : SiteInfo} {request : Bytes} (hmal : ¬ (requestLine request).Malformed)
    (hget : (requestLine request).method = methodGet)
    (hfile : ∀ content mime,
      env.get (requestedFile site.rootDir (requestLine request).path) = .found content mime →
        ∃ file ∈ env.openFile (requestedFile site.rootDir (requestLine request).path),
          whole content file) :
    KeepsFraming malformed whole silent env site request := by
  refine Or.inr ?_
  rw [if_neg hmal, if_pos hget]
  exact hfile

section

variable (malformed : RequestLine → Response) (thrown : Option Response)
  {malformedFits : Bytes → Prop} {whole : Bytes → Bytes → Prop} {silent : Prop}
  (piece : Bytes → Bytes → Bytes) (env : Env) (site : SiteInfo) (request : Bytes)

/-- The body bytes of every response to the request are counted right exactly when
the request keeps the framing. -/
theorem counted_answerWith_iff
    (hmalformed : (requestLine request).Malformed →
      (Counted request (malformed (requestLine request))
        (deliveredWith (piece (malformed (requestLine request)).body) env.openFile
          (malformed (requestLine request))) ↔ malformedFits (requestLine request).method))
    (hthrown : ∀ r ∈ thrown, r.method = methodGet ∧ r.filePath = [] ∧ r.body ≠ [])
    (hsilent : thrown = none ↔ silent)
    (hpiece : ∀ content file, content ≠ [] →
      ((piece content file).length = content.length ↔ whole content file)) :
    (∀ r ∈ (answerWith malformed thrown env site request).response,
        Counted request r (deliveredWith (piece r.body) env.openFile r)) ↔
      KeepsFraming malformedFits whole silent env site request := by
  rcases request_cases request with rfl | ⟨hne, hmal⟩ | hnames | ⟨hmal, hpost⟩ |
      ⟨hmal, hget, hhead, hpost⟩
  · simp only [answerWith_nil, Option.mem_some_iff, forall_eq', KeepsFraming, true_or, iff_true]
    exact (counted_of_get rfl rfl (by decide)).mpr (by decide)
  · simp only [answerWith_malformed malformed thrown env site hne hmal, Option.mem_some_iff,
      forall_eq', KeepsFraming, hne, hmal, if_true, false_or]
    exact hmalformed hmal
  · -- a file: what is sent depends on the method and on what the cache finds
    rw [answerWith_file malformed thrown env site hnames]
    have hpath : requestedFile site.rootDir (requestLine request).path ≠ [] :=
      hnames.requestedFile_ne_nil _
    simp only [KeepsFraming, ne_nil_of_not_malformed hnames.1, hnames.1, if_false, false_or]
    by_cases hget : (requestLine request).method = methodGet
    · have hhead : (requestLine request).method ≠ methodHead := by
        rw [hget]
        decide
      rw [if_pos hget]
      cases hanswer : env.get (requestedFile site.rootDir (requestLine request).path) with
      | found content mime =>
          have hcontent : content ≠ [] := env.get_nonempty _ _ _ hanswer
          simp only [Option.mem_some_iff, forall_eq', CacheAnswer.found.injEq, and_imp,
            forall_apply_eq_imp_iff]
          refine (counted_of_file ?_ ?_ ?_ hhead).trans ?_
          · exact hget
          · exact hcontent
          · exact hpath
          · exact exists_congr fun file => and_congr_right' (hpiece content file hcontent)
      | missing =>
          simp only [Option.mem_some_iff, forall_eq', reduceCtorEq, false_imp_iff, implies_true,
            iff_true]
          exact (counted_of_get hget rfl (by simp [Response.notFound, ascii])).mpr hhead
      | throws =>
          simp only [reduceCtorEq, false_imp_iff, implies_true, iff_true]
          intro r hr
          obtain ⟨hmethod, hfile, hbody⟩ := hthrown r hr
          exact (counted_of_get hmethod hfile hbody).mpr hhead
    · have hhead := hnames.2.resolve_left hget
      rw [if_neg hget, if_pos hhead]
      cases hanswer : env.get (requestedFile site.rootDir (requestLine request).path) with
      | found content mime =>
          simp only [Option.mem_some_iff, forall_eq', reduceCtorEq, false_imp_iff, iff_true]
          exact (counted_of_ne_get hget).mpr (Or.inl hhead)
      | missing =>
          simp only [Option.mem_some_iff, forall_eq', reduceCtorEq, false_imp_iff, iff_true]
          exact (counted_of_ne_get hget).mpr (Or.inl hhead)
      | throws =>
          -- the response to an exception has a body, whatever the method
          simp only [true_imp_iff, ← hsilent]
          constructor
          · intro hall
            cases thrown with
            | none => rfl
            | some r =>
                obtain ⟨hmethod, hfile, hbody⟩ := hthrown r rfl
                exact absurd hhead ((counted_of_get hmethod hfile hbody).mp (hall r rfl))
          · intro hnone r hr
            exact absurd hr (by simp [hnone])
  · -- a POST: its body is announced and not sent
    have hget := methodPost_ne_methodGet
    have hhead := methodPost_ne_methodHead
    simp only [answerWith_post malformed thrown env site hmal hpost, Option.mem_some_iff,
      forall_eq', KeepsFraming, ne_nil_of_not_malformed hmal, hmal, hpost, hget, hhead, if_false,
      false_or, true_and]
    rw [counted_of_ne_get (r := .echo _ _ _ methodPost) hget, hpost]
    simp [hhead, Response.echo]
  · simp only [answerWith_other malformed thrown env site hmal hget hhead hpost,
      Option.mem_some_iff, forall_eq', KeepsFraming, ne_nil_of_not_malformed hmal, hmal, hpost,
      hget, hhead, if_false, false_or, false_and, iff_false]
    rw [counted_of_ne_get (r := .notImplemented _ _ (requestLine request).method) hget]
    simp [hhead, Response.notImplemented, ascii]

end

/-! ## The handlers -/

/-- Every call that writes takes all it is offered; a response needs two of them. -/
def WritesInFull {ε : Type} (results : List (CallResult ε)) : Prop :=
  2 ≤ results.length ∧ ∀ result ∈ results, result = .full

theorem eq_cons_of_writesInFull {ε : Type} {results : List (CallResult ε)}
    (h : WritesInFull results) : ∃ rest, results = .full :: .full :: rest := by
  obtain ⟨hlength, hfull⟩ := h
  rcases results with _ | ⟨first, _ | ⟨second, rest⟩⟩
  · simp at hlength
  · simp at hlength
  · exact ⟨rest, by rw [hfull first (by simp), hfull second (by simp)]⟩

/-- What keeps the framing of `handle_http`: a malformed request is answered with a
body whatever its method, and so is a HEAD on which the cache throws. -/
def HttpFraming : Env → SiteInfo → Bytes → Prop :=
  KeepsFraming (fun method => method ≠ methodHead)
    (fun content file => content.length ≤ file.length) False

/-- What keeps the framing of `handle_https`: a malformed request is answered with a
body if its method is GET, and an opened file is sent up to its own length. -/
def HttpsFraming : Env → SiteInfo → Bytes → Prop :=
  KeepsFraming (fun method => method = methodGet ∨ method = methodHead)
    (fun content file => content.length = (toInt file.length).toNat) True

theorem counted_http_iff (env : Env) (site : SiteInfo) (request : Bytes) :
    (∀ r ∈ (HttpUtil.answer env site request).response,
        Counted request r (HttpUtil.delivered env.openFile r)) ↔ HttpFraming env site request := by
  refine counted_answerWith_iff _ _ (fun content file => file.take content.length) env site request
    (fun _ => ?_) ?_ ?_ fun content file _ => ?_
  · exact counted_of_get rfl rfl (by decide)
  · rintro r hr
    obtain rfl := Option.some.inj hr
    exact ⟨rfl, rfl, by decide⟩
  · simp
  · simp

theorem handleHttp_framed_iff (env : Env) (site : SiteInfo) (recvs : List RecvResult)
    {writes : List WriteResult} (hwrites : WritesInFull writes) :
    FramedRun (HttpUtil.received recvs) (HttpUtil.handleHttp env site recvs writes) ↔
      (HttpUtil.Answers recvs → HttpFraming env site (HttpUtil.received recvs)) := by
  obtain ⟨rest, rfl⟩ := eq_cons_of_writesInFull hwrites
  by_cases hanswers : HttpUtil.Answers recvs
  · obtain ⟨r, hr⟩ := HttpUtil.exists_response env site (HttpUtil.received recvs)
    have hwell : r.WellFormed := wellFormed_answerWith (fun _ => wellFormed_badRequest _)
      (by simpa using wellFormed_serverError) hr
    rw [← counted_http_iff, hr, HttpUtil.handleHttp_answers env site _ hanswers hr, FramedRun,
      HttpUtil.wire_sendHttpResponse_full, framed_iff_counted _ hwell]
    simp [hanswers]
  · rw [HttpUtil.handleHttp_silent env site _ hanswers]
    simp [FramedRun, hanswers]

theorem counted_https_iff (env : Env) (site : SiteInfo) (request : Bytes) :
    (∀ r ∈ (HttpsUtil.answer env site request).response,
        Counted request r (HttpsUtil.delivered env.openFile r)) ↔
      HttpsFraming env site request := by
  refine counted_answerWith_iff _ _ (fun _ file => file.take (toInt file.length).toNat) env site
    request (fun _ => ?_) ?_ ?_ fun content file _ => ?_
  · -- a malformed request is answered with its own method
    by_cases hget : (requestLine request).method = methodGet
    · have hhead : (requestLine request).method ≠ methodHead := by
        rw [hget]
        decide
      refine (counted_of_get ?_ rfl (by decide : ascii "400 Bad Request" ≠ [])).trans ?_
      · exact hget
      · exact iff_of_true hhead (Or.inl hget)
    · refine (counted_of_ne_get ?_).trans ?_
      · exact hget
      · simp [hget, Response.badRequest, ascii]
  · simp
  · simp
  · have hle := toInt_le file.length
    rw [List.length_take]
    omega

theorem length_body_le_answerWith {env : Env} {site : SiteInfo} {request : Bytes} {r : Response}
    (hr : (HttpsUtil.answer env site request).response = some r) (hget : r.method = methodGet)
    (hfile : r.filePath = []) : r.body.length ≤ 15 := by
  revert hget hfile
  refine forall_response
    (P := fun r => r.method = methodGet → r.filePath = [] → r.body.length ≤ 15)
    ?_ ?_ ?_ ?_ ?_ ?_ ?_ hr
  · exact fun _ _ => (by decide : (ascii "400 Bad Request").length ≤ 15)
  · exact fun _ _ => (by decide : (ascii "400 Bad Request").length ≤ 15)
  · exact fun hnames _ _ _ _ hfile => absurd hfile (hnames.requestedFile_ne_nil _)
  · exact fun _ _ => (by decide : (ascii "404 Not Found").length ≤ 15)
  · simp
  · exact fun hget => absurd hget methodPost_ne_methodGet
  · exact fun hmethod hget => absurd hget hmethod

/-- The header block is no longer than what one `SSL_write` can be offered. -/
def HeaderFits (env : Env) (site : SiteInfo) (request : Bytes) : Prop :=
  ∀ r ∈ (HttpsUtil.answer env site request).response, r.header.length < 0x80000000

instance (env : Env) (site : SiteInfo) (request : Bytes) :
    Decidable (HeaderFits env site request) :=
  inferInstanceAs (Decidable (∀ r ∈ (HttpsUtil.answer env site request).response, _))

theorem handleHttps_framed_iff (env : Env) (site : SiteInfo) (hasEntry : Bool)
    {results : HttpsUtil.TlsResults} (hwrites : WritesInFull results.writes)
    (hheader : HeaderFits env site (HttpsUtil.received results)) :
    FramedRun (HttpsUtil.received results)
        (HttpsUtil.handleHttps env site hasEntry results).run ↔
      (HttpsUtil.Answers hasEntry results →
        HttpsFraming env site (HttpsUtil.received results)) := by
  by_cases hanswers : HttpsUtil.Answers hasEntry results
  · rw [← counted_https_iff, HttpsUtil.handleHttps_answers env site hanswers]
    cases hr : (HttpsUtil.answer env site (HttpsUtil.received results)).response with
    | none => simp [FramedRun]
    | some r =>
        have hwell : r.WellFormed := wellFormed_answerWith (fun _ => wellFormed_badRequest _)
          (by simp) hr
        -- the only bodies in memory that are sent are texts of the handler
        have hbody : r.method = methodGet → r.filePath = [] → r.body.length < 0x80000000 :=
          fun hget hfile => lt_of_le_of_lt (length_body_le_answerWith hr hget hfile) (by decide)
        obtain ⟨rest, hrest⟩ := eq_cons_of_writesInFull hwrites
        simp only [FramedRun, hrest]
        rw [HttpsUtil.wire_sendHttpsResponse_full (hheader r hr) hbody,
          framed_iff_counted _ hwell]
        simp [hanswers]
  · obtain ⟨returned, unread, hsilent⟩ := HttpsUtil.handleHttps_silent env site hanswers
    simp [hsilent, FramedRun, hanswers, HttpsUtil.silent]

/-- **Response framing.**  When every write succeeds in full, the bytes behind the
blank line of a response are as many as a client expects exactly when the request
keeps the framing. -/
theorem response_framing_iff (env : Env) (site : SiteInfo) :
    (∀ recvs writes, WritesInFull writes →
      (FramedRun (HttpUtil.received recvs) (HttpUtil.handleHttp env site recvs writes) ↔
        (HttpUtil.Answers recvs → HttpFraming env site (HttpUtil.received recvs)))) ∧
    (∀ hasEntry results, WritesInFull results.writes →
      HeaderFits env site (HttpsUtil.received results) →
      (FramedRun (HttpsUtil.received results)
          (HttpsUtil.handleHttps env site hasEntry results).run ↔
        (HttpsUtil.Answers hasEntry results →
          HttpsFraming env site (HttpsUtil.received results)))) :=
  ⟨fun recvs _ hwrites => handleHttp_framed_iff env site recvs hwrites,
    fun hasEntry _ hwrites hheader => handleHttps_framed_iff env site hasEntry hwrites hheader⟩

/-- A POST with a body. -/
def order : List RecvResult :=
  [.data ⟨ascii "POST /order HTTP/1.1\r\nContent-Length: 2\r\n\r\nhi", by decide, by decide⟩]

/-- The response to a POST announces the two bytes of its body, and none follow. -/
theorem post_response_without_body :
    ¬ ∀ (env : Env) (site : SiteInfo) (recvs : List RecvResult) (writes : List WriteResult),
      WritesInFull writes →
        FramedRun (HttpUtil.received recvs) (HttpUtil.handleHttp env site recvs writes) := by
  intro h
  have hwrites : WritesInFull ([.full, .full] : List WriteResult) := ⟨le_rfl, by simp⟩
  have hkeeps := (handleHttp_framed_iff pages shop order hwrites).mp
    (h pages shop order _ hwrites) (by decide)
  simp only [HttpFraming, KeepsFraming] at hkeeps
  rw [if_neg (by decide), if_neg (by decide), if_neg (by decide)] at hkeeps
  exact absurd hkeeps (by decide)

/-- The page, asked for over both protocols. -/
theorem response_framing_page :
    FramedRun (ascii "GET / HTTP/1.1\r\n\r\n")
      (HttpUtil.handleHttp pages shop
        [.data ⟨ascii "GET / HTTP/1.1\r\n\r\n", by decide, by decide⟩] [.full, .full]) ∧
    FramedRun (ascii "GET / HTTP/1.1\r\n\r\n")
      (HttpsUtil.handleHttps pages shop true ⟨none, .done,
        [.data ⟨ascii "GET / HTTP/1.1\r\n\r\n", by decide, by decide⟩], [.full, .full]⟩).run := by
  have hfound : ∀ content mime, pages.get (requestedFile shop.rootDir (ascii "/")) =
      .found content mime → content = ascii "hello" := by
    intro content mime hget
    have hhello : pages.get (requestedFile shop.rootDir (ascii "/")) =
        .found (ascii "hello") (FileCache.getMimeType (ascii "/srv/index.html")) := by
      decide
    exact (CacheAnswer.found.inj (hget.symm.trans hhello)).1
  refine ⟨((response_framing_iff pages shop).1 _ _ ⟨le_rfl, by simp⟩).mpr fun _ =>
      keepsFraming_get (by decide) (by decide) fun content mime hget => ?_,
    ((response_framing_iff pages shop).2 true _ ⟨le_rfl, by simp⟩ (by decide +kernel)).mpr fun _ =>
      keepsFraming_get (by decide) (by decide) fun content mime hget => ?_⟩
  · refine ⟨ascii "hello", by decide, ?_⟩
    rw [hfound content mime hget]
  · refine ⟨ascii "hello", by decide, ?_⟩
    rw [hfound content mime hget, toInt_of_lt (by decide), Int.toNat_natCast]

end Sok.Serving
