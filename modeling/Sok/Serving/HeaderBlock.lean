import Sok.Serving.Framing

/-!
# The lines of a header block

The version of a request is echoed at the start of the response.  It is a word, so it has no
line end, and nothing else a client sends gets into the header block.  So the lines of the
block are those the server means to write, and `parse_headers` reads the values it put in.
-/

namespace Sok

/-! ## Lines and values -/

namespace Response

/-- The lines of the header block as `getline` returns them. -/
def lines (r : Response) : List Bytes :=
  (r.statusLine ++ [cr]) ::
    ([ascii "Content-Type: " ++ r.mime ++ [cr], ascii "Server: SOK\r",
      ascii "Content-Length: " ++ decimal r.body.length ++ [cr]] ++
    ((if r.keepAlive then [ascii "Connection: keep-alive\r"] else []) ++ [[cr]]))

/-- The values that the server puts into the header block. -/
def values (r : Response) : Headers := fun name =>
  if name = ascii "Connection" ∧ r.keepAlive = true then some (ascii "keep-alive")
  else if name = ascii "Content-Length" then some (decimal r.body.length)
  else if name = ascii "Server" then some (ascii "SOK")
  else if name = ascii "Content-Type" then some r.mime
  else none

/-- The header block is one status line and the lines of the server, and whatever is sent behind
it, its values are read back up to its end. -/
def NotSplit (r : Response) : Prop :=
  (cr ∉ r.statusLine ∧ lf ∉ r.statusLine) ∧ (getlines r.header).map Prod.fst = r.lines ∧
    ∀ payload, readResponse (r.header ++ payload) = some (r.values, payload)

/-- What a response of the handlers is made of. -/
structure Printable (r : Response) : Prop where
  wellFormed : r.WellFormed
  version : ∀ b ∈ r.version, isSpace b = false
  statusText : cr ∉ r.statusText
  mime : r.mime ≠ []

theorem map_getlines_fields (fields : List Field) :
    (getlines (fields.flatMap Field.render ++ crlf)).map Prod.fst =
      fields.map Field.line ++ [[cr]] := by
  induction fields with
  | nil => rfl
  | cons field fields ih =>
      rw [show (field :: fields).flatMap Field.render ++ crlf =
          field.line ++ lf :: (fields.flatMap Field.render ++ crlf) by
            simp [Field.render, List.append_assoc],
        getlines_append _ field.lf_notMem_line, List.map_cons, ih]
      rfl

namespace Printable

variable {r : Response}

theorem cr_notMem_statusLine (h : r.Printable) : cr ∉ r.statusLine := by
  have hversion : cr ∉ r.version := fun hmem => absurd (h.version cr hmem) (by decide)
  have hcode : cr ∉ decimal r.statusCode := fun hmem => absurd (mem_decimal hmem).1 (by decide)
  have hspace : cr ∉ ascii " " := by decide
  simp [statusLine, hversion, hcode, hspace, h.statusText]

theorem lf_notMem_statusLine (h : r.Printable) : lf ∉ r.statusLine := fun hmem =>
  r.lf_notMem_statusLine h.wellFormed (List.mem_append_left [cr] hmem)

theorem map_getlines_header (h : r.Printable) : (getlines r.header).map Prod.fst = r.lines := by
  have htype : ascii "Content-Type: " = ascii "Content-Type" ++ colon :: ascii " " := by decide
  have hserver : ascii "Server: SOK\r" =
      ascii "Server" ++ colon :: (ascii " " ++ (ascii "SOK" ++ [cr])) := by decide
  have hlength : ascii "Content-Length: " = ascii "Content-Length" ++ colon :: ascii " " := by
    decide
  have hconn : ascii "Connection: keep-alive\r" =
      ascii "Connection" ++ colon :: (ascii " " ++ (ascii "keep-alive" ++ [cr])) := by decide
  rw [r.header_eq h.wellFormed, getlines_append _ (r.lf_notMem_statusLine h.wellFormed),
    List.map_cons, map_getlines_fields, lines, htype, hserver, hlength, hconn]
  cases hkeep : r.keepAlive <;> simp [hkeep, fields, h.mime, fieldOf, Field.line]

theorem fieldMap_fields (h : r.Printable) :
    fieldMap (fun _ => none) (r.fields h.wellFormed) = r.values := by
  funext name
  cases hkeep : r.keepAlive <;>
    simp [hkeep, values, fields, fieldMap, h.mime, fieldOf, Function.update_apply]

theorem notSplit (h : r.Printable) : r.NotSplit := by
  refine ⟨⟨h.cr_notMem_statusLine, h.lf_notMem_statusLine⟩, h.map_getlines_header, ?_⟩
  intro payload
  rw [readResponse_header r h.wellFormed, h.fieldMap_fields]

end Printable

end Response

namespace Serving

/-! ## The responses of the handlers -/

theorem isSpace_http11 : ∀ b ∈ http11, isSpace b = false := by
  have hall : (http11.all (!isSpace ·)) = true := by decide
  intro b hb
  simpa using List.all_eq_true.mp hall b hb

theorem printable_badRequest (method : Bytes) : (Response.badRequest method).Printable where
  wellFormed := wellFormed_badRequest method
  version := isSpace_http11
  statusText := (by decide : cr ∉ ascii "Bad Request")
  mime := (by decide : textPlain ≠ [])

theorem printable_serverError : Response.serverError.Printable where
  wellFormed := wellFormed_serverError
  version := isSpace_http11
  statusText := by decide
  mime := by decide

/-- The version of a response is a word, its status text is one of the server's, and its MIME type
is not empty. -/
theorem printable_answerWith {malformed : RequestLine → Response} {thrown : Option Response}
    (hmalformed : ∀ line, (malformed line).Printable) (hthrown : ∀ r ∈ thrown, r.Printable)
    {env : Env} {site : SiteInfo} {request : Bytes} {r : Response}
    (hr : (answerWith malformed thrown env site request).response = some r) : r.Printable := by
  have hversion : ∀ b ∈ (requestLine request).version, isSpace b = false :=
    fun b hb => isSpace_of_mem_nextToken hb
  have hlf := lf_notMem_version request
  have hplain : textPlain ≠ [] := by decide
  refine forall_response (printable_badRequest _) (hmalformed _) ?_ ?_ hthrown ?_ ?_ hr
  · intro _ content mime hfound
    obtain ⟨hmime, hmimeLf, htrimmed⟩ := FileCache.getMimeType_fit
      (requestedFile site.rootDir (requestLine request).path)
    rw [← env.get_mime _ _ _ hfound] at hmime hmimeLf htrimmed
    exact ⟨wellFormed_file hlf hmimeLf htrimmed _ _ _ _, hversion, (by decide : cr ∉ ascii "OK"),
      hmime⟩
  · exact ⟨wellFormed_notFound hlf _ _, hversion, (by decide : cr ∉ ascii "Not Found"), hplain⟩
  · exact ⟨wellFormed_echo hlf _ _ _, hversion, (by decide : cr ∉ ascii "OK"), hplain⟩
  · exact fun _ => ⟨wellFormed_notImplemented hlf _ _, hversion,
      (by decide : cr ∉ ascii "Not Implemented"), hplain⟩

theorem printable_http {env : Env} {site : SiteInfo} {request : Bytes} {r : Response}
    (hr : (HttpUtil.answer env site request).response = some r) : r.Printable :=
  printable_answerWith (fun _ => printable_badRequest _) (by
    rintro other ⟨⟩
    exact printable_serverError) hr

theorem printable_https {env : Env} {site : SiteInfo} {request : Bytes} {r : Response}
    (hr : (HttpsUtil.answer env site request).response = some r) : r.Printable :=
  printable_answerWith (fun _ => printable_badRequest _) (by simp) hr

end Serving

/-! ## What is sent -/

/-- A header write that takes all it is offered puts the header block before everything else. -/
theorem HttpUtil.exists_payload (openFile : Bytes → Option Bytes) {r : Response}
    {first : WriteResult} (results : List WriteResult)
    (hfirst : write r.header.length first = .ok r.header.length) :
    ∃ payload, (sendHttpResponse openFile r (first :: results)).wire = r.header ++ payload := by
  have hwrite : safeWrite r.header first = (r.header, true) := by
    simp only [safeWrite, hfirst, List.take_length]
  simp only [sendHttpResponse, hwrite, if_true]
  exact ⟨_, rfl⟩

theorem HttpsUtil.exists_payload (openFile : Bytes → Option Bytes) {r : Response}
    {first : SslWriteResult} (results : List SslWriteResult)
    (hfirst : sslWrite (toInt r.header.length) first = .ok r.header.length) :
    ∃ payload, (sendHttpsResponse openFile r (first :: results)).wire = r.header ++ payload := by
  have hwrite : safeSslWrite r.header first = (r.header, true) := by
    simp only [safeSslWrite, hfirst, List.take_length]
  simp only [sendHttpsResponse, hwrite, if_true]
  exact ⟨_, rfl⟩

/-- What a handler that answers has decided on. -/
theorem HttpUtil.answer_of_response {env : Env} {site : SiteInfo} {recvs : List RecvResult}
    {writes : List WriteResult} {r : Response}
    (h : (handleHttp env site recvs writes).response = some r) :
    (answer env site (received recvs)).response = some r ∧
      (handleHttp env site recvs writes).wire = (sendHttpResponse env.openFile r writes).wire := by
  by_cases hanswers : Answers recvs
  · obtain ⟨other, hother⟩ := exists_response env site (received recvs)
    rw [handleHttp_answers env site writes hanswers hother] at h ⊢
    obtain rfl := Option.some.inj h
    exact ⟨hother, rfl⟩
  · rw [handleHttp_silent env site writes hanswers] at h
    exact absurd h (by simp)

theorem HttpsUtil.answer_of_response {env : Env} {site : SiteInfo} {hasEntry : Bool}
    {results : TlsResults} {r : Response}
    (h : (handleHttps env site hasEntry results).run.response = some r) :
    (answer env site (received results)).response = some r ∧
      (handleHttps env site hasEntry results).run.wire =
        (sendHttpsResponse env.openFile r results.writes).wire := by
  by_cases hanswers : Answers hasEntry results
  · rw [handleHttps_answers env site hanswers] at h ⊢
    cases hother : (answer env site (received results)).response with
    | none =>
        rw [hother] at h
        exact absurd h (by simp)
    | some other =>
        rw [hother] at h
        obtain rfl := Option.some.inj h
        exact ⟨rfl, rfl⟩
  · obtain ⟨returned, unread, hrun⟩ := handleHttps_silent env site hanswers
    rw [hrun] at h
    exact absurd h (by simp [silent])

/-! ## Both handlers -/

namespace Serving

/-- A GET that names a page. -/
def pageRecvs : List RecvResult :=
  [.data ⟨ascii "GET / HTTP/1.1\r\n\r\n", by decide, by decide⟩]

/-- Whatever a client sends, the header block of the answer has only the lines of the server, and
when the call that writes it takes all it is offered, it comes first on the connection. -/
theorem no_response_splitting (env : Env) (site : SiteInfo) :
    (∀ recvs writes, ∀ r ∈ (HttpUtil.handleHttp env site recvs writes).response,
      r.NotSplit ∧ ∀ first results, writes = first :: results →
        write r.header.length first = .ok r.header.length →
        ∃ payload, (HttpUtil.handleHttp env site recvs writes).wire = r.header ++ payload) ∧
    ∀ hasEntry results, ∀ r ∈ (HttpsUtil.handleHttps env site hasEntry results).run.response,
      r.NotSplit ∧ ∀ first writes, results.writes = first :: writes →
        sslWrite (toInt r.header.length) first = .ok r.header.length →
        ∃ payload,
          (HttpsUtil.handleHttps env site hasEntry results).run.wire = r.header ++ payload := by
  constructor
  · intro recvs writes r hr
    obtain ⟨hanswer, hwire⟩ := HttpUtil.answer_of_response hr
    refine ⟨(printable_http hanswer).notSplit, ?_⟩
    rintro first results rfl hfirst
    rw [hwire]
    exact HttpUtil.exists_payload env.openFile results hfirst
  · intro hasEntry results r hr
    obtain ⟨hanswer, hwire⟩ := HttpsUtil.answer_of_response hr
    refine ⟨(printable_https hanswer).notSplit, ?_⟩
    intro first writes hwrites hfirst
    rw [hwire, hwrites]
    exact HttpsUtil.exists_payload env.openFile writes hfirst

theorem no_response_splitting_page :
    ∃ r ∈ (HttpUtil.handleHttp pages shop pageRecvs [.full, .full]).response, r.NotSplit ∧
      ∃ payload, (HttpUtil.handleHttp pages shop pageRecvs [.full, .full]).wire =
        r.header ++ payload := by
  obtain ⟨hsplit, hwire⟩ := (no_response_splitting pages shop).1 pageRecvs [.full, .full] _ rfl
  exact ⟨_, rfl, hsplit, hwire .full [.full] rfl rfl⟩

end Serving

end Sok
