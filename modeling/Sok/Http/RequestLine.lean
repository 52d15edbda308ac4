import Sok.Foundation.Words
import Sok.Handler

/-!
# The request line

`operator>>` skips line feeds like any other white space.  So the three words that
`handle_http` acts on are the first three of the whole request, and not those of its first
line: a missing word is taken from the line below, and what a line has behind its third word
is skipped.
-/

namespace Sok

open Words (words)

/-! ## The first line -/

/-- The bytes before the first line end. -/
def firstLine (request : Bytes) : Bytes :=
  match Search.find crlf request with
  | none => request
  | some i => request.take i

namespace RequestLine

/-- The words that the handlers act on. -/
def words (line : RequestLine) : List Bytes :=
  [line.method, line.path, line.version]

/-- What `std::getline(iss, dummy)` and `parse_headers(iss)` leave in the stream. -/
def left (line : RequestLine) : Bytes :=
  match getline line.rest with
  | none => (HttpUtil.parseHeaders []).2
  | some (_, rest) => (HttpUtil.parseHeaders rest).2

end RequestLine

/-- The request is cut behind its first line. -/
theorem exists_behind_firstLine {request : Bytes} (h : crlf <:+: request) :
    ∃ more, request = firstLine request ++ cr :: lf :: more := by
  obtain ⟨i, hfind⟩ := Search.exists_find h
  obtain ⟨more, hmore⟩ := Search.prefix_drop_of_find hfind
  refine ⟨more, ?_⟩
  calc request
      = request.take i ++ request.drop i := (List.take_append_drop i request).symm
    _ = firstLine request ++ cr :: lf :: more := by
        rw [firstLine, hfind, ← hmore]
        rfl

theorem crlf_infix_of_headerEnd {s : Bytes} (h : headerEnd <:+: s) : crlf <:+: s :=
  List.IsInfix.trans ⟨[], crlf, rfl⟩ h

/-! ## Its words -/

theorem nextToken_eq (s : Bytes) : nextToken s = (Words.first isSpace s, Words.behind isSpace s) :=
  rfl

theorem malformed_iff (request : Bytes) :
    (requestLine request).Malformed ↔ (words isSpace request).length < 3 := by
  simp only [RequestLine.Malformed, requestLine, nextToken_eq]
  by_cases hmethod : Words.first isSpace request = []
  · simp [hmethod, Words.words_of_first_eq_nil hmethod]
  · rw [Words.words_of_first_ne_nil hmethod]
    by_cases hpath : Words.first isSpace (Words.behind isSpace request) = []
    · simp [hpath, Words.words_of_first_eq_nil hpath]
    · rw [Words.words_of_first_ne_nil hpath]
      by_cases hversion :
          Words.first isSpace (Words.behind isSpace (Words.behind isSpace request)) = []
      · simp [hversion, Words.words_of_first_eq_nil hversion]
      · rw [Words.words_of_first_ne_nil hversion]
        simp [hmethod, hpath, hversion]

/-- The handlers act on the first three words of the request. -/
theorem words_requestLine {request : Bytes} (h : ¬ (requestLine request).Malformed) :
    words isSpace request =
      (requestLine request).words ++ words isSpace (requestLine request).rest := by
  simp only [RequestLine.Malformed, not_or, requestLine, nextToken_eq] at h
  obtain ⟨hmethod, hpath, hversion⟩ := h
  rw [Words.words_of_first_ne_nil hmethod, Words.words_of_first_ne_nil hpath,
    Words.words_of_first_ne_nil hversion]
  rfl

theorem words_firstLine {request : Bytes} (h : crlf <:+: request) :
    ∃ more, words isSpace request = words isSpace (firstLine request) ++ more := by
  obtain ⟨more, hmore⟩ := exists_behind_firstLine h
  refine ⟨words isSpace (lf :: more), ?_⟩
  calc words isSpace request
      = words isSpace (firstLine request ++ cr :: (lf :: more)) := congrArg _ hmore
    _ = words isSpace (firstLine request) ++ words isSpace (lf :: more) :=
        Words.words_append_cons _ (by decide) _

/-- They are words of the first line when it has three. -/
theorem words_prefix_iff {request : Bytes} (hline : crlf <:+: request)
    (h : ¬ (requestLine request).Malformed) :
    (requestLine request).words <+: words isSpace (firstLine request) ↔
      3 ≤ (words isSpace (firstLine request)).length := by
  have hthree : (requestLine request).words.length = 3 := rfl
  constructor
  · intro hprefix
    exact hthree ▸ hprefix.length_le
  · intro hlength
    obtain ⟨more, hmore⟩ := words_firstLine hline
    have hwords : (requestLine request).words <+: words isSpace request :=
      ⟨_, (words_requestLine h).symm⟩
    rw [hmore] at hwords
    exact List.prefix_of_prefix_length_le hwords (List.prefix_append _ _) (hthree ▸ hlength)

/-! ## What is done with a request -/

/-- A response that tells what became of the request. -/
def Response.Executed (r : Response) : Prop :=
  r.statusCode = 200 ∨ r.statusCode = 404 ∨ r.statusCode = 501

/-- A GET or HEAD for a file on which the cache throws. -/
def CacheThrows (env : Env) (site : SiteInfo) (request : Bytes) : Prop :=
  NamesFile request ∧
    env.get (requestedFile site.rootDir (requestLine request).path) = .throws

namespace HttpUtil

variable {env : Env} {site : SiteInfo} {request : Bytes}

theorem response_of_malformed (h : (requestLine request).Malformed) :
    (answer env site request).response = some (.badRequest methodGet) := by
  by_cases hnil : request = []
  · rw [hnil, answer, answerWith_nil]
  · rw [answer, answerWith_malformed _ _ env site hnil h]

theorem response_of_cacheThrows (h : CacheThrows env site request) :
    (answer env site request).response = some .serverError := by
  rw [answer, answerWith_file _ _ env site h.1, h.2]

/-- Any other request is executed, and the connection is kept if it asks for that. -/
theorem exists_executed (hwell : ¬ (requestLine request).Malformed)
    (hthrows : ¬ CacheThrows env site request) :
    ∃ r, (answer env site request).response = some r ∧ r.Executed ∧
      r.keepAlive = (requestLine request).keepAlive := by
  rw [answer]
  rcases request_cases request with hnil | ⟨hne, hmal⟩ | hnames | ⟨hmal, hpost⟩ |
      ⟨hmal, hget, hhead, hpost⟩
  · exact absurd hnil (ne_nil_of_not_malformed hwell)
  · exact absurd hmal hwell
  · rw [answerWith_file _ _ env site hnames]
    cases hfile : env.get (requestedFile site.rootDir (requestLine request).path) with
    | found content mime => exact ⟨_, rfl, Or.inl rfl, rfl⟩
    | missing => exact ⟨_, rfl, Or.inr (Or.inl rfl), rfl⟩
    | throws => exact absurd ⟨hnames, hfile⟩ hthrows
  · rw [answerWith_post _ _ env site hmal hpost]
    exact ⟨_, rfl, Or.inl rfl, rfl⟩
  · rw [answerWith_other _ _ env site hmal hget hhead hpost]
    exact ⟨_, rfl, Or.inr (Or.inr rfl), rfl⟩

theorem response_ne_badRequest (hwell : ¬ (requestLine request).Malformed) (method : Bytes) :
    (answer env site request).response ≠ some (.badRequest method) := by
  by_cases hthrows : CacheThrows env site request
  · rw [response_of_cacheThrows hthrows]
    simp [Response.serverError, Response.badRequest]
  · obtain ⟨r, hr, hexecuted, -⟩ := exists_executed hwell hthrows
    rw [hr]
    intro heq
    obtain rfl := Option.some.inj heq
    simp [Response.Executed, Response.badRequest] at hexecuted

/-- A response that does not keep the connection makes the handler return false. -/
theorem returned_of_not_keepAlive {recvs : List RecvResult} (writes : List WriteResult)
    (hanswers : Answers recvs) {r : Response}
    (hr : (answer env site (received recvs)).response = some r) (hkeep : r.keepAlive = false) :
    ∀ b ∈ (handleHttp env site recvs writes).returned, b = false := by
  intro b hb
  rw [handleHttp_answers env site writes hanswers hr, hkeep] at hb
  obtain ⟨broken, -, rfl⟩ := Option.map_eq_some_iff.mp hb
  exact Bool.and_false _

theorem answers_of_headerEnd {recvs : List RecvResult} (h : headerEnd <:+: received recvs) :
    Answers recvs := by
  have hstop := (readLoop_stop_eq_none_iff RecvStop.again (by decide) recvs).mpr h
  rw [Answers, hstop]
  simp

/-! ## The grammar of the request line -/

/-- A first line without exactly three words is answered with `400` and ends the connection, and
the words acted on are those of the first line. -/
def ObeysGrammar (run : HandlerRun RecvStop) (request : Bytes) : Prop :=
  ((words isSpace (firstLine request)).length ≠ 3 →
      run.response = some (.badRequest methodGet) ∧ ∀ b ∈ run.returned, b = false) ∧
    (¬ (requestLine request).Malformed →
      (requestLine request).words <+: words isSpace (firstLine request))

/-- A request line without a version. -/
def versionless : List RecvResult :=
  [.data ⟨ascii "GET /\r\nHost: x\r\n\r\n", by decide, by decide⟩]

def wellFormedGet : List RecvResult :=
  [.data ⟨ascii "GET / HTTP/1.1\r\nHost: x\r\n\r\n", by decide, by decide⟩]

/-- The first line has exactly three words, or the whole request has less. -/
theorem request_grammar_iff (env : Env) (site : SiteInfo) {recvs : List RecvResult}
    (writes : List WriteResult) (hend : headerEnd <:+: received recvs) :
    ObeysGrammar (handleHttp env site recvs writes) (received recvs) ↔
      (words isSpace (firstLine (received recvs))).length = 3 ∨
        (words isSpace (received recvs)).length < 3 := by
  have hanswers := answers_of_headerEnd hend
  have hline := crlf_infix_of_headerEnd hend
  obtain ⟨r, hr⟩ := exists_response env site (received recvs)
  have hresponse : (handleHttp env site recvs writes).response = some r := by
    rw [handleHttp_answers env site writes hanswers hr]
  rw [← malformed_iff]
  constructor
  · rintro ⟨hrefused, -⟩
    by_contra hnot
    rw [not_or] at hnot
    have hbad := (hrefused hnot.1).1
    rw [hresponse, ← hr] at hbad
    exact response_ne_badRequest hnot.2 _ hbad
  · rintro (hthree | hmal)
    · refine ⟨fun hne => absurd hthree hne, fun hwell => ?_⟩
      exact (words_prefix_iff hline hwell).mpr hthree.ge
    · have hbad : (answer env site (received recvs)).response = some (.badRequest methodGet) :=
        response_of_malformed hmal
      refine ⟨fun _ => ⟨?_, ?_⟩, fun hwell => absurd hmal hwell⟩
      · rw [hresponse, ← hr, hbad]
      · exact returned_of_not_keepAlive writes hanswers hbad rfl

theorem request_grammar_wellFormedGet :
    headerEnd <:+: received wellFormedGet ∧
      (ObeysGrammar (handleHttp pages shop wellFormedGet []) (received wellFormedGet) ↔
        (words isSpace (firstLine (received wellFormedGet))).length = 3 ∨
          (words isSpace (received wellFormedGet)).length < 3) := by
  have hend : headerEnd <:+: received wellFormedGet := by decide
  exact ⟨hend, request_grammar_iff pages shop [] hend⟩

/-- The name of the header is taken for the version. -/
theorem header_name_is_version :
    headerEnd <:+: received versionless ∧ (requestLine (received versionless)).version =
        ascii "Host:" ∧
      ¬ ObeysGrammar (handleHttp pages shop versionless []) (received versionless) := by
  refine ⟨by decide, by decide, fun hobeys => ?_⟩
  have hwell : ¬ (requestLine (received versionless)).Malformed := by decide
  exact absurd (hobeys.2 hwell) (by decide)

end HttpUtil

end Sok
