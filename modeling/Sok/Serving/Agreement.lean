import Sok.Serving.ZeroCopy

/-!
# The two handlers side by side

`handle_http` and `handle_https` on one request that is delivered in one read,
over one cache and file system, with writes that succeed in full.  They put the same
bytes on the connection and return the same value exactly when the request
`Agrees`: the copies have drifted apart in the response to a malformed request
line, in what happens when the cache throws, and in the length of an opened file.
-/

namespace Sok.Serving

/-- Every call that writes takes all it is offered, and there is a call for the
header block, one for the body and one more. -/
def WritesAllInFull {ε : Type} (results : List (CallResult ε)) : Prop :=
  3 ≤ results.length ∧ ∀ result ∈ results, result = .full

theorem eq_cons_of_writesAllInFull {ε : Type} {results : List (CallResult ε)}
    (h : WritesAllInFull results) :
    ∃ rest, results = .full :: .full :: .full :: rest ∧ ∀ result ∈ rest, result = .full := by
  obtain ⟨hlength, hfull⟩ := h
  rcases results with _ | ⟨first, _ | ⟨second, _ | ⟨third, rest⟩⟩⟩
  · simp at hlength
  · simp at hlength
  · simp at hlength
  · refine ⟨rest, ?_, fun result hmem => hfull result (by simp [hmem])⟩
    rw [hfull first (by simp), hfull second (by simp), hfull third (by simp)]

/-- The same bytes on the connection, and the same value returned. -/
def SameOutcome {ε ε' : Type} (a : HandlerRun ε) (b : HandlerRun ε') : Prop :=
  a.wire = b.wire ∧ a.returned = b.returned

/-! ## One response, sent by both -/

section

variable {openFile : Bytes → Option Bytes} {r : Response}

/-- The response is a file that both send to the same length, or no file is sent. -/
def SameLength (openFile : Bytes → Option Bytes) (r : Response) : Prop :=
  r.method = methodGet ∧ r.body ≠ [] ∧ r.filePath ≠ [] →
    ∀ file ∈ openFile r.filePath, r.body.length = (toInt file.length).toNat

/-- `sendfile` of a file that has become shorter is called for ever. -/
theorem brokenPipe_of_short {file : Bytes}
    (hfile : r.method = methodGet ∧ r.body ≠ [] ∧ r.filePath ≠ [])
    (hopen : openFile r.filePath = some file) (hshort : file.length < r.body.length)
    {results : List WriteResult} (hfull : ∀ result ∈ results, result = .full) :
    (HttpUtil.sendHttpResponse openFile r (.full :: results)).brokenPipe = none := by
  have hended : (HttpUtil.sendfileLoop file r.body.length results).ended = none := by
    refine Transfer.ended_eq_none_of_short (HttpUtil.bounded_sendfile file r.body.length) hshort ?_
    intro result hmem total error
    rw [hfull result hmem]
    simp [sendfile, write]
  simp only [HttpUtil.sendHttpResponse, HttpUtil.safeWrite, write, if_true, HttpUtil.sendBody,
    if_pos hfile, hopen, hended, Option.map_none]

/-- The mapped file is sent in one call, and one more is refused if that was not
all of it. -/
theorem ended_mmapLoop_full (file : Bytes) (results : List SslWriteResult) :
    ∃ ended, (HttpsUtil.mmapLoop file (.full :: .full :: results)).ended = some ended := by
  unfold HttpsUtil.mmapLoop
  by_cases hempty : file.length ≤ 0
  · exact ⟨_, by rw [Transfer.loop_of_goal_le hempty]⟩
  have hlength : 0 < file.length := not_le.mp hempty
  by_cases hpos : 0 < toInt file.length
  · rw [Transfer.loop_cons_ok hlength (sslWrite_full hpos), Transfer.Progress.after_ended,
      Nat.zero_add]
    by_cases hall : file.length ≤ (toInt file.length).toNat
    · exact ⟨_, by rw [Transfer.loop_of_goal_le hall]⟩
    · obtain ⟨error, herror⟩ := sslWrite_refused (toInt_sub_toNat hpos.le).le .full
      exact ⟨_, by rw [Transfer.loop_cons_error (not_le.mp hall) herror]⟩
  · obtain ⟨error, herror⟩ := sslWrite_refused (not_lt.mp hpos) .full
    exact ⟨_, by rw [Transfer.loop_cons_error hlength herror]⟩

/-- With writes that succeed in full `send_https_response` always returns. -/
theorem brokenPipe_sendHttpsResponse_full (hheader : r.header.length < 0x80000000)
    (hbody : r.method = methodGet → r.filePath = [] → r.body.length < 0x80000000)
    (results : List SslWriteResult) :
    (HttpsUtil.sendHttpsResponse openFile r (.full :: .full :: .full :: results)).brokenPipe =
      some false := by
  have hne : r.header ≠ [] := by simp [Response.header, crlf]
  have hsafe := HttpsUtil.safeSslWrite_full hne hheader
  refine (HttpsUtil.brokenPipe_sendHttpsResponse_cons hsafe _).trans ?_
  exact HttpsUtil.brokenPipe_sendBody (fun file => ended_mmapLoop_full file results)
    fun hget hpath hempty => HttpsUtil.safeSslWrite_full hempty (hbody hget hpath)

/-- What the two senders make of one response. -/
theorem sent_agree_iff (hheader : r.header.length < 0x80000000)
    (hbody : r.method = methodGet → r.filePath = [] → r.body.length < 0x80000000)
    {writes : List WriteResult} (hwrites : WritesAllInFull writes)
    {tlsWrites : List SslWriteResult} (htls : WritesAllInFull tlsWrites) :
    ((HttpUtil.sendHttpResponse openFile r writes).wire =
        (HttpsUtil.sendHttpsResponse openFile r tlsWrites).wire ∧
      ((HttpUtil.sendHttpResponse openFile r writes).brokenPipe.map
          fun broken => !broken && r.keepAlive) =
        (HttpsUtil.sendHttpsResponse openFile r tlsWrites).brokenPipe.map
          fun broken => !broken && r.keepAlive) ↔ SameLength openFile r := by
  obtain ⟨rest, rfl, hrest⟩ := eq_cons_of_writesAllInFull hwrites
  obtain ⟨tlsRest, rfl, -⟩ := eq_cons_of_writesAllInFull htls
  rw [HttpUtil.wire_sendHttpResponse_full, HttpsUtil.wire_sendHttpsResponse_full hheader hbody,
    brokenPipe_sendHttpsResponse_full hheader hbody, List.append_right_inj]
  by_cases hfile : r.method = methodGet ∧ r.body ≠ [] ∧ r.filePath ≠ []
  · have hhttp : HttpUtil.delivered openFile r = _ :=
      deliveredWith_of_file hfile.1 hfile.2.1 hfile.2.2
    have hhttps : HttpsUtil.delivered openFile r = _ :=
      deliveredWith_of_file hfile.1 hfile.2.1 hfile.2.2
    rw [hhttp, hhttps]
    cases hopen : openFile r.filePath with
    | none =>
        have hfits : HttpUtil.FileFits openFile r := fun _ file hsome => by
          rw [hopen] at hsome
          exact absurd hsome (by simp)
        rw [HttpUtil.brokenPipe_sendHttpResponse_full hfits]
        simp [SameLength, hopen]
    | some file =>
        have hle := toInt_le file.length
        have hsame : SameLength openFile r ↔ r.body.length = (toInt file.length).toNat := by
          simp [SameLength, hfile, hopen]
        rw [hsame]
        constructor
        · -- the plain sender returns, so the file is long enough, and the pieces are equal
          rintro ⟨hwire, hreturned⟩
          have hlong : r.body.length ≤ file.length := by
            by_contra hshort
            rw [brokenPipe_of_short hfile hopen (not_le.mp hshort) (by simpa using hrest)]
              at hreturned
            exact absurd hreturned (by simp)
          have hlengths := congrArg List.length hwire
          rw [List.length_take, List.length_take] at hlengths
          omega
        · intro hlength
          have hfits : HttpUtil.FileFits openFile r := fun _ other hother => by
            rw [hopen] at hother
            obtain rfl := Option.some.inj hother
            omega
          rw [HttpUtil.brokenPipe_sendHttpResponse_full hfits, hlength]
          exact ⟨rfl, rfl⟩
  · have hsame : SameLength openFile r := fun h => absurd h hfile
    have hwire : HttpUtil.delivered openFile r = HttpsUtil.delivered openFile r := by
      unfold HttpUtil.delivered HttpsUtil.delivered deliveredWith
      rw [if_neg hfile, if_neg hfile]
    have hreturned : (HttpUtil.sendHttpResponse openFile r
        (.full :: .full :: .full :: rest)).brokenPipe = some false := by
      simp only [HttpUtil.sendHttpResponse, HttpUtil.safeWrite, write, if_true, HttpUtil.sendBody,
        if_neg hfile]
      split
      · obtain ⟨-, unused, hended⟩ := HttpUtil.writeLoop_full r.body (.full :: rest)
        simp [hended]
      · rfl
    rw [hwire, hreturned]
    exact iff_of_true ⟨rfl, rfl⟩ hsame

end

/-! ## The condition -/

/-- Where the two handlers do the same. -/
def Agrees (env : Env) (site : SiteInfo) (request : Bytes) : Prop :=
  let line := requestLine request
  let path := requestedFile site.rootDir line.path
  if line.Malformed then line.method = methodGet
  else if line.method = methodGet ∨ line.method = methodHead then
    match env.get path with
    | .throws => False
    | .missing => True
    | .found content _ => line.method = methodGet →
        ∀ file ∈ env.openFile path, content.length = (toInt file.length).toNat
  else True

/-! ## The handlers -/

theorem readLoop_block {ε : Type} (idle : ε) {block : Block} (hend : headerEnd <:+: block.bytes)
    (rest : List (ReadResult ε)) :
    readLoop idle [] (.data block :: rest) = ⟨block.bytes, none, rest⟩ := by
  unfold readLoop
  rw [List.nil_append, if_pos hend]

/-- One request, read in one block by both handlers, and writes that succeed in full. -/
structure OneBlock (env : Env) (site : SiteInfo) (block : Block) (writes : List WriteResult)
    (hasEntry : Bool) (results : HttpsUtil.TlsResults) : Prop where
  blank_line : headerEnd <:+: block.bytes
  writes_full : WritesAllInFull writes
  handshake : (hasEntry = true ∨ results.peek = some 0x16) ∧ results.accept = .done
  reads : ∃ rest, results.reads = .data block :: rest
  tls_writes_full : WritesAllInFull results.writes
  /-- Only formal: beside constant texts the header block has the version token, which is a part of
  the block, a MIME type and the decimal length of the page. -/
  header_fits : HeaderFits env site block.bytes

section

variable {env : Env} {site : SiteInfo} {block : Block} {writes : List WriteResult}
  {hasEntry : Bool} {results : HttpsUtil.TlsResults} {rest : List RecvResult}

theorem OneBlock.run_http (h : OneBlock env site block writes hasEntry results)
    (rest : List RecvResult) {r : Response}
    (hr : (HttpUtil.answer env site block.bytes).response = some r) :
    (HttpUtil.handleHttp env site (.data block :: rest) writes).wire =
        (HttpUtil.sendHttpResponse env.openFile r writes).wire ∧
      (HttpUtil.handleHttp env site (.data block :: rest) writes).returned =
        (HttpUtil.sendHttpResponse env.openFile r writes).brokenPipe.map
          fun broken => !broken && r.keepAlive := by
  have hread := readLoop_block RecvStop.again h.blank_line rest
  have hanswers : HttpUtil.Answers (.data block :: rest) := by
    unfold HttpUtil.Answers
    rw [hread]
    simp
  have hreceived : HttpUtil.received (.data block :: rest) = block.bytes := by
    unfold HttpUtil.received
    rw [hread]
  rw [HttpUtil.handleHttp_answers env site writes hanswers (hreceived ▸ hr)]
  exact ⟨rfl, rfl⟩

theorem OneBlock.answers_tls (h : OneBlock env site block writes hasEntry results) :
    HttpsUtil.Answers hasEntry results ∧ HttpsUtil.received results = block.bytes := by
  obtain ⟨tlsRest, hreads⟩ := h.reads
  have hread := readLoop_block SslReadStop.want h.blank_line tlsRest
  unfold HttpsUtil.Answers HttpsUtil.received
  rw [hreads, hread]
  exact ⟨⟨h.handshake.1, h.handshake.2, by simp, by simp⟩, rfl⟩

theorem OneBlock.run_https (h : OneBlock env site block writes hasEntry results) {r : Response}
    (hr : (HttpsUtil.answer env site block.bytes).response = some r) :
    (HttpsUtil.handleHttps env site hasEntry results).run.wire =
        (HttpsUtil.sendHttpsResponse env.openFile r results.writes).wire ∧
      (HttpsUtil.handleHttps env site hasEntry results).run.returned =
        (HttpsUtil.sendHttpsResponse env.openFile r results.writes).brokenPipe.map
          fun broken => !broken && r.keepAlive := by
  obtain ⟨hanswers, hreceived⟩ := h.answers_tls
  rw [HttpsUtil.handleHttps_answers env site hanswers, hreceived, hr]
  exact ⟨rfl, rfl⟩

/-- Deciding on the same response is agreeing, up to the length of its file. -/
theorem OneBlock.same_iff (h : OneBlock env site block writes hasEntry results) {r : Response}
    (hr : (HttpUtil.answer env site block.bytes).response = some r)
    (hr' : (HttpsUtil.answer env site block.bytes).response = some r) :
    SameOutcome (HttpUtil.handleHttp env site (.data block :: rest) writes)
        (HttpsUtil.handleHttps env site hasEntry results).run ↔
      SameLength env.openFile r := by
  obtain ⟨hwire, hreturned⟩ := h.run_http rest hr
  obtain ⟨hwire', hreturned'⟩ := h.run_https hr'
  unfold SameOutcome
  rw [hwire, hreturned, hwire', hreturned']
  refine sent_agree_iff (h.header_fits r hr') (fun hget hfile => ?_) h.writes_full
    h.tls_writes_full
  exact lt_of_le_of_lt (length_body_le_answerWith hr' hget hfile) (by decide)

/-- A malformed request is answered with the same header block by both, and by
`handle_http` always with a body. -/
theorem OneBlock.malformed_iff (h : OneBlock env site block writes hasEntry results)
    (hmal : (requestLine block.bytes).Malformed) (hne : block.bytes ≠ []) :
    SameOutcome (HttpUtil.handleHttp env site (.data block :: rest) writes)
        (HttpsUtil.handleHttps env site hasEntry results).run ↔
      (requestLine block.bytes).method = methodGet := by
  have hr : (HttpUtil.answer env site block.bytes).response = some (.badRequest methodGet) := by
    rw [HttpUtil.answer, answerWith_malformed _ _ env site hne hmal]
  have hr' : (HttpsUtil.answer env site block.bytes).response =
      some (.badRequest (requestLine block.bytes).method) := by
    rw [HttpsUtil.answer, answerWith_malformed _ _ env site hne hmal]
  constructor
  · rintro ⟨hwires, -⟩
    by_contra hget
    obtain ⟨writesRest, hwrites, -⟩ := eq_cons_of_writesAllInFull h.writes_full
    obtain ⟨tlsRest, htls, -⟩ := eq_cons_of_writesAllInFull h.tls_writes_full
    rw [(h.run_http rest hr).1, (h.run_https hr').1, hwrites, htls,
      HttpUtil.wire_sendHttpResponse_full,
      HttpsUtil.wire_sendHttpsResponse_full (h.header_fits _ hr') fun hmethod => absurd hmethod hget]
      at hwires
    have hbody : HttpUtil.delivered env.openFile (.badRequest methodGet) =
        ascii "400 Bad Request" := deliveredWith_of_no_file rfl rfl
    have hnobody : HttpsUtil.delivered env.openFile
        (.badRequest (requestLine block.bytes).method) = [] := deliveredWith_of_ne_get hget
    rw [hbody, hnobody] at hwires
    exact absurd (List.append_cancel_left hwires) (by decide)
  · intro hget
    rw [hget] at hr'
    exact (h.same_iff hr hr').mpr fun hfile => absurd rfl hfile.2.2

/-- When the cache throws, `handle_http` answers and `handle_https` does not. -/
theorem OneBlock.not_same_of_throws (h : OneBlock env site block writes hasEntry results)
    (hr : (HttpUtil.answer env site block.bytes).response = some .serverError)
    (hr' : (HttpsUtil.answer env site block.bytes).response = none) :
    ¬ SameOutcome (HttpUtil.handleHttp env site (.data block :: rest) writes)
        (HttpsUtil.handleHttps env site hasEntry results).run := by
  rintro ⟨hwires, -⟩
  obtain ⟨hanswers, hreceived⟩ := h.answers_tls
  obtain ⟨writesRest, hwrites, -⟩ := eq_cons_of_writesAllInFull h.writes_full
  rw [(h.run_http rest hr).1, HttpsUtil.handleHttps_answers env site hanswers, hreceived, hr',
    hwrites, HttpUtil.wire_sendHttpResponse_full] at hwires
  have hheader : Response.serverError.header ≠ [] := by simp [Response.header, crlf]
  exact hheader (List.append_eq_nil_iff.mp hwires).1

end

/-- **Agreement.**  On a request delivered in one read, with writes that succeed in
full, the two handlers emit the same bytes and return the same value exactly
when the request agrees. -/
theorem handlers_agree_iff (env : Env) (site : SiteInfo) {block : Block}
    {writes : List WriteResult} {hasEntry : Bool} {results : HttpsUtil.TlsResults}
    (h : OneBlock env site block writes hasEntry results) (rest : List RecvResult) :
    SameOutcome (HttpUtil.handleHttp env site (.data block :: rest) writes)
        (HttpsUtil.handleHttps env site hasEntry results).run ↔
      Agrees env site block.bytes := by
  unfold Agrees
  rcases request_cases block.bytes with hnil | ⟨hne, hmal⟩ | hnames | ⟨hmal, hpost⟩ |
      ⟨hmal, hget, hhead, hpost⟩
  · exact absurd hnil block.nonempty
  · rw [if_pos hmal]
    exact h.malformed_iff hmal hne
  · rw [if_neg hnames.1, if_pos hnames.2]
    have hpath : requestedFile site.rootDir (requestLine block.bytes).path ≠ [] :=
      hnames.requestedFile_ne_nil _
    have hhttp := answerWith_file (fun _ => .badRequest methodGet) (some .serverError) env site
      hnames
    have hhttps := answerWith_file (fun line => .badRequest line.method) none env site hnames
    cases hanswer : env.get (requestedFile site.rootDir (requestLine block.bytes).path) with
    | found content mime =>
        rw [hanswer] at hhttp hhttps
        have hcontent : content ≠ [] := env.get_nonempty _ _ _ hanswer
        rw [h.same_iff (congrArg Answer.response hhttp) (congrArg Answer.response hhttps)]
        constructor
        · exact fun hsame hget => hsame ⟨hget, hcontent, hpath⟩
        · exact fun hlength hfile => hlength hfile.1
    | missing =>
        rw [hanswer] at hhttp hhttps
        rw [h.same_iff (congrArg Answer.response hhttp) (congrArg Answer.response hhttps)]
        exact iff_of_true (fun hfile => absurd rfl hfile.2.2) trivial
    | throws =>
        rw [hanswer] at hhttp hhttps
        exact iff_of_false (h.not_same_of_throws (congrArg Answer.response hhttp)
          (congrArg Answer.response hhttps)) id
  · have hmethods : ¬ ((requestLine block.bytes).method = methodGet ∨
        (requestLine block.bytes).method = methodHead) := by
      rw [hpost]
      decide
    rw [if_neg hmal, if_neg hmethods]
    have hhttp := answerWith_post (fun _ => .badRequest methodGet) (some .serverError) env site
      hmal hpost
    have hhttps := answerWith_post (fun line => .badRequest line.method) none env site hmal hpost
    rw [h.same_iff (congrArg Answer.response hhttp) (congrArg Answer.response hhttps)]
    exact iff_of_true (fun hfile => absurd rfl hfile.2.2) trivial
  · rw [if_neg hmal, if_neg (not_or.mpr ⟨hget, hhead⟩)]
    have hhttp := answerWith_other (fun _ => .badRequest methodGet) (some .serverError) env site
      hmal hget hhead hpost
    have hhttps := answerWith_other (fun line => .badRequest line.method) none env site hmal hget
      hhead hpost
    rw [h.same_iff (congrArg Answer.response hhttp) (congrArg Answer.response hhttps)]
    exact iff_of_true (fun hfile => absurd rfl hfile.2.2) trivial

/-- A TLS connection on which the block is read and every write succeeds. -/
def tlsBlock (block : Block) : HttpsUtil.TlsResults :=
  ⟨none, .done, [.data block], [.full, .full, .full]⟩

theorem oneBlock_of (env : Env) (site : SiteInfo) {block : Block}
    (hend : headerEnd <:+: block.bytes) (hheader : HeaderFits env site block.bytes) :
    OneBlock env site block [.full, .full, .full] true (tlsBlock block) where
  blank_line := hend
  writes_full := ⟨le_rfl, by simp⟩
  handshake := ⟨Or.inl rfl, rfl⟩
  reads := ⟨[], rfl⟩
  tls_writes_full := ⟨le_rfl, by simp [tlsBlock]⟩
  header_fits := hheader

/-- The index page over both protocols. -/
theorem handlers_agree_page :
    SameOutcome
      (HttpUtil.handleHttp pages shop [.data ⟨indexRequest, by decide, by decide⟩]
        [.full, .full, .full])
      (HttpsUtil.handleHttps pages shop true
        (tlsBlock ⟨indexRequest, by decide, by decide⟩)).run := by
  refine (handlers_agree_iff pages shop (oneBlock_of pages shop (by decide) (by decide +kernel))
    []).mpr ?_
  unfold Agrees
  rw [if_neg (by decide), if_pos (by decide)]
  have hanswer : pages.get (requestedFile shop.rootDir (requestLine indexRequest).path) =
      .found (ascii "hello") (ascii "text/html; charset=utf-8") := by
    decide
  rw [hanswer]
  intro _ file hopen
  have hfile : pages.openFile (requestedFile shop.rootDir (requestLine indexRequest).path) =
      some (ascii "hello") := by
    decide
  rw [hfile, Option.mem_some_iff] at hopen
  rw [← hopen, toInt_of_lt (by decide), Int.toNat_natCast]

/-- A request line that has only its method is answered with a body over HTTP and
without one over TLS. -/
theorem malformed_post_differs :
    ¬ SameOutcome
      (HttpUtil.handleHttp pages shop [.data ⟨ascii "POST\r\n\r\n", by decide, by decide⟩]
        [.full, .full, .full])
      (HttpsUtil.handleHttps pages shop true
        (tlsBlock ⟨ascii "POST\r\n\r\n", by decide, by decide⟩)).run := by
  have hblock : OneBlock pages shop ⟨ascii "POST\r\n\r\n", by decide, by decide⟩
      [.full, .full, .full] true (tlsBlock ⟨ascii "POST\r\n\r\n", by decide, by decide⟩) :=
    oneBlock_of pages shop (by decide) (by decide +kernel)
  rw [hblock.malformed_iff (by decide) (by decide)]
  decide

end Sok.Serving
