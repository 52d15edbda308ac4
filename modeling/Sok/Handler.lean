import Sok.Cache.Representation
import Sok.Config.Site
import Sok.Http.Send
import Sok.Https.Send

/-!
# The request handlers

`handle_http` and `handle_https`.  Each reads until it has seen a blank line,
decides on one response (`answer`) and sends it.  What they share, the file
cache and the file system, is the `Env`; what the calls return is given as lists
of results.
-/

namespace Sok

/-! ## The environment of a handler -/

/-- The file cache as a handler meets it during one call, and the file system
behind `open`.  `FileCache::get` never returns an empty file, and the MIME type
is that of the path. -/
structure Env where
  get : Bytes → CacheAnswer
  openFile : Bytes → Option Bytes
  get_nonempty : ∀ path content mime, get path = .found content mime → content ≠ []
  get_mime : ∀ path content mime, get path = .found content mime →
    mime = FileCache.getMimeType path

namespace Env

/-- A cache of a running server: what its `get` answers to the next lookup. -/
def ofCache (cache : FileCache) (h : cache.Linked) (calls : Bytes → FileCache.FileCalls)
    (openFile : Bytes → Option Bytes) : Env where
  get path := (cache.get path (calls path)).elim .throws Prod.snd
  openFile := openFile
  get_nonempty path content mime hfound := by
    obtain ⟨next, answer, hget, hgot⟩ := h.get path (calls path)
    rw [hget, Option.elim_some] at hfound
    subst hfound
    exact (h.found_of_got hgot).1
  get_mime path content mime hfound := by
    obtain ⟨next, answer, hget, hgot⟩ := h.get path (calls path)
    rw [hget, Option.elim_some] at hfound
    subst hfound
    exact (h.found_of_got hgot).2

/-- An empty cache over files that do not change. -/
def ofFiles (files : List (Bytes × Bytes)) : Env where
  get path :=
    match files.lookup path with
    | some (b :: content) => .found (b :: content) (FileCache.getMimeType path)
    | _ => .missing
  openFile path := files.lookup path
  get_nonempty path content mime h := by
    split at h
    · obtain ⟨rfl, -⟩ := CacheAnswer.found.inj h
      simp
    · exact absurd h (by simp)
  get_mime path content mime h := by
    split at h
    · exact (CacheAnswer.found.inj h).2.symm
    · exact absurd h (by simp)

end Env

/-! ## Reading a request -/

/-- The three words of the request line, and the stream behind them. -/
structure RequestLine where
  method : Bytes
  path : Bytes
  version : Bytes
  rest : Bytes

/-- `iss >> method >> path >> version`. -/
def requestLine (request : Bytes) : RequestLine :=
  let (method, s) := nextToken request
  let (path, s) := nextToken s
  let (version, s) := nextToken s
  ⟨method, path, version, s⟩

namespace RequestLine

/-- One of the words is missing. -/
def Malformed (line : RequestLine) : Prop :=
  line.method = [] ∨ line.path = [] ∨ line.version = []

instance (line : RequestLine) : Decidable line.Malformed :=
  inferInstanceAs (Decidable (_ ∨ _ ∨ _))

/-- `std::getline(iss, dummy)` and `parse_headers(iss)`. -/
def headers (line : RequestLine) : Headers :=
  match getline line.rest with
  | none => (HttpUtil.parseHeaders []).1
  | some (_, rest) => (HttpUtil.parseHeaders rest).1

/-- The `Connection` header asks for keep-alive, in one of two spellings. -/
def keepAlive (line : RequestLine) : Bool :=
  match line.headers (ascii "Connection") with
  | none => false
  | some value => value == ascii "keep-alive" || value == ascii "Keep-Alive"

end RequestLine

/-- The file a GET or HEAD names: the root with the path behind it, and the
index page when the path is nothing but a slash. -/
def requestedFile (rootDir path : Bytes) : Bytes :=
  let filePath := rootDir ++ path
  if filePath = rootDir ++ ascii "/" ∨ filePath = rootDir then rootDir ++ ascii "/index.html"
  else filePath

/-- The body of a POST: what follows the first blank line. -/
def postBody (request : Bytes) : Bytes :=
  match Search.find headerEnd request with
  | none => []
  | some pos => request.drop (pos + 4)

/-- What a handler decides to do with a request. -/
structure Answer where
  /-- The paths passed to `FileCache::get`. -/
  lookups : List Bytes
  /-- The response sent; `none` when an exception leaves without one. -/
  response : Option Response

/-- What both handlers do with the bytes they have read.  They differ in the
response to a malformed request line, and in what leaves the `catch` blocks
when the cache throws. -/
def answerWith (malformed : RequestLine → Response) (thrown : Option Response) (env : Env)
    (site : SiteInfo) (request : Bytes) : Answer :=
  if request = [] then ⟨[], some (.badRequest methodGet)⟩
  else
    let line := requestLine request
    if line.Malformed then ⟨[], some (malformed line)⟩
    else if line.method = methodGet ∨ line.method = methodHead then
      let filePath := requestedFile site.rootDir line.path
      match env.get filePath with
      | .found content mime =>
          ⟨[filePath], some (.file line.version mime content line.keepAlive line.method filePath)⟩
      | .missing => ⟨[filePath], some (.notFound line.version line.keepAlive line.method)⟩
      | .throws => ⟨[filePath], thrown⟩
    else if line.method = methodPost then
      ⟨[], some (.echo line.version (postBody request) line.keepAlive line.method)⟩
    else ⟨[], some (.notImplemented line.version line.keepAlive line.method)⟩

/-- The request is a well-formed GET or HEAD, the only ones that look up a file. -/
def NamesFile (request : Bytes) : Prop :=
  ¬ (requestLine request).Malformed ∧
    ((requestLine request).method = methodGet ∨ (requestLine request).method = methodHead)

instance (request : Bytes) : Decidable (NamesFile request) :=
  inferInstanceAs (Decidable (_ ∧ _))

theorem malformed_nil : (requestLine []).Malformed :=
  Or.inl rfl

/-- The five kinds of request the handlers tell apart. -/
theorem request_cases (request : Bytes) :
    request = [] ∨ (request ≠ [] ∧ (requestLine request).Malformed) ∨ NamesFile request ∨
      (¬ (requestLine request).Malformed ∧ (requestLine request).method = methodPost) ∨
      (¬ (requestLine request).Malformed ∧ (requestLine request).method ≠ methodGet ∧
        (requestLine request).method ≠ methodHead ∧ (requestLine request).method ≠ methodPost) := by
  by_cases hnil : request = []
  · exact Or.inl hnil
  · by_cases hmal : (requestLine request).Malformed
    · exact Or.inr (Or.inl ⟨hnil, hmal⟩)
    · by_cases hget : (requestLine request).method = methodGet
      · exact Or.inr (Or.inr (Or.inl ⟨hmal, Or.inl hget⟩))
      · by_cases hhead : (requestLine request).method = methodHead
        · exact Or.inr (Or.inr (Or.inl ⟨hmal, Or.inr hhead⟩))
        · by_cases hpost : (requestLine request).method = methodPost
          · exact Or.inr (Or.inr (Or.inr (Or.inl ⟨hmal, hpost⟩)))
          · exact Or.inr (Or.inr (Or.inr (Or.inr ⟨hmal, hget, hhead, hpost⟩)))

section

variable (malformed : RequestLine → Response) (thrown : Option Response) (env : Env)
  (site : SiteInfo)

theorem answerWith_nil :
    answerWith malformed thrown env site [] = ⟨[], some (.badRequest methodGet)⟩ := by
  simp [answerWith]

theorem answerWith_malformed {request : Bytes} (hne : request ≠ [])
    (hmal : (requestLine request).Malformed) :
    answerWith malformed thrown env site request =
      ⟨[], some (malformed (requestLine request))⟩ := by
  simp [answerWith, hne, hmal]

theorem ne_nil_of_not_malformed {request : Bytes} (hmal : ¬ (requestLine request).Malformed) :
    request ≠ [] :=
  fun hnil => hmal (hnil ▸ malformed_nil)

theorem answerWith_file {request : Bytes} (hnames : NamesFile request) :
    answerWith malformed thrown env site request =
      match env.get (requestedFile site.rootDir (requestLine request).path) with
      | .found content mime =>
          ⟨[requestedFile site.rootDir (requestLine request).path],
            some (.file (requestLine request).version mime content (requestLine request).keepAlive
              (requestLine request).method
              (requestedFile site.rootDir (requestLine request).path))⟩
      | .missing =>
          ⟨[requestedFile site.rootDir (requestLine request).path],
            some (.notFound (requestLine request).version (requestLine request).keepAlive
              (requestLine request).method)⟩
      | .throws => ⟨[requestedFile site.rootDir (requestLine request).path], thrown⟩ := by
  simp only [answerWith, ne_nil_of_not_malformed hnames.1, hnames.1, hnames.2, if_true, if_false]

theorem answerWith_post {request : Bytes} (hmal : ¬ (requestLine request).Malformed)
    (hpost : (requestLine request).method = methodPost) :
    answerWith malformed thrown env site request =
      ⟨[], some (.echo (requestLine request).version (postBody request)
        (requestLine request).keepAlive methodPost)⟩ := by
  have hget : ¬ (methodPost = methodGet ∨ methodPost = methodHead) := by decide
  simp only [answerWith, ne_nil_of_not_malformed hmal, hmal, hpost, hget, if_true, if_false]

theorem answerWith_other {request : Bytes} (hmal : ¬ (requestLine request).Malformed)
    (hget : (requestLine request).method ≠ methodGet)
    (hhead : (requestLine request).method ≠ methodHead)
    (hpost : (requestLine request).method ≠ methodPost) :
    answerWith malformed thrown env site request =
      ⟨[], some (.notImplemented (requestLine request).version (requestLine request).keepAlive
        (requestLine request).method)⟩ := by
  simp only [answerWith, ne_nil_of_not_malformed hmal, hmal, hget, hhead, hpost, or_self, if_false]

theorem lookups_answerWith (request : Bytes) :
    (answerWith malformed thrown env site request).lookups =
      if NamesFile request then [requestedFile site.rootDir (requestLine request).path]
      else [] := by
  rcases request_cases request with rfl | ⟨hne, hmal⟩ | hnames | ⟨hmal, hpost⟩ |
      ⟨hmal, hget, hhead, hpost⟩
  · have hnames : ¬ NamesFile [] := fun h => h.1 malformed_nil
    rw [answerWith_nil, if_neg hnames]
  · rw [answerWith_malformed malformed thrown env site hne hmal, if_neg fun h => h.1 hmal]
  · rw [answerWith_file malformed thrown env site hnames, if_pos hnames]
    split <;> rfl
  · have hnames : ¬ NamesFile request := fun h => by
      rw [NamesFile, hpost] at h
      exact absurd h.2 (by decide)
    rw [answerWith_post malformed thrown env site hmal hpost, if_neg hnames]
  · rw [answerWith_other malformed thrown env site hmal hget hhead hpost,
      if_neg fun h => h.2.elim hget hhead]

end

theorem requestedFile_ne_nil (rootDir : Bytes) {path : Bytes} (hpath : path ≠ []) :
    requestedFile rootDir path ≠ [] := by
  unfold requestedFile
  dsimp only
  split
  · simp [ascii]
  · simp [hpath]

theorem NamesFile.requestedFile_ne_nil {request : Bytes} (h : NamesFile request)
    (rootDir : Bytes) : requestedFile rootDir (requestLine request).path ≠ [] :=
  Sok.requestedFile_ne_nil rootDir fun hnil => h.1 (Or.inr (Or.inl hnil))

section

variable {malformed : RequestLine → Response} {thrown : Option Response} {env : Env}
  {site : SiteInfo}

/-- What is true of the response of each branch is true of every response. -/
theorem forall_response {P : Response → Prop} {request : Bytes}
    (hempty : P (.badRequest methodGet)) (hmalformed : P (malformed (requestLine request)))
    (hfound : NamesFile request → ∀ content mime,
      env.get (requestedFile site.rootDir (requestLine request).path) = .found content mime →
        P (.file (requestLine request).version mime content (requestLine request).keepAlive
          (requestLine request).method (requestedFile site.rootDir (requestLine request).path)))
    (hmissing : P (.notFound (requestLine request).version (requestLine request).keepAlive
      (requestLine request).method))
    (hthrown : ∀ r ∈ thrown, P r)
    (hecho : P (.echo (requestLine request).version (postBody request)
      (requestLine request).keepAlive methodPost))
    (hother : (requestLine request).method ≠ methodGet →
      P (.notImplemented (requestLine request).version (requestLine request).keepAlive
        (requestLine request).method))
    {r : Response} (hr : (answerWith malformed thrown env site request).response = some r) :
    P r := by
  rcases request_cases request with rfl | ⟨hne, hmal⟩ | hnames | ⟨hmal, hpost⟩ |
      ⟨hmal, hget, hhead, hpost⟩
  · rw [answerWith_nil] at hr
    exact Option.some.inj hr ▸ hempty
  · rw [answerWith_malformed malformed thrown env site hne hmal] at hr
    exact Option.some.inj hr ▸ hmalformed
  · rw [answerWith_file malformed thrown env site hnames] at hr
    split at hr
    · rename_i content mime hget
      exact Option.some.inj hr ▸ hfound hnames content mime hget
    · exact Option.some.inj hr ▸ hmissing
    · exact hthrown r hr
  · rw [answerWith_post malformed thrown env site hmal hpost] at hr
    exact Option.some.inj hr ▸ hecho
  · rw [answerWith_other malformed thrown env site hmal hget hhead hpost] at hr
    exact Option.some.inj hr ▸ hother hget

/-- The only response with a file path is that to a static file, and the path is
the one looked up. -/
theorem filePath_answerWith (hmalformed : ∀ line, (malformed line).filePath = [])
    (hthrown : ∀ r ∈ thrown, r.filePath = []) {request : Bytes} {r : Response}
    (hr : (answerWith malformed thrown env site request).response = some r)
    (hfile : r.filePath ≠ []) :
    r.filePath ∈ (answerWith malformed thrown env site request).lookups := by
  have hpath : r.filePath = [] ∨
      r.filePath ∈ (answerWith malformed thrown env site request).lookups := by
    refine forall_response (P := fun r => r.filePath = [] ∨ r.filePath ∈ _) (Or.inl rfl)
      (Or.inl (hmalformed _)) ?_ (Or.inl rfl) (fun r hr => Or.inl (hthrown r hr)) (Or.inl rfl)
      (fun _ => Or.inl rfl) hr
    intro hnames content mime _
    rw [lookups_answerWith, if_pos hnames]
    exact Or.inr (List.mem_singleton.mpr rfl)
  exact hpath.resolve_left hfile

end

/-- The run of a handler. -/
structure HandlerRun (ε : Type) where
  /-- The paths passed to `FileCache::get`. -/
  lookups : List Bytes
  /-- The response it decided on, if it came so far. -/
  response : Option Response
  /-- The files it opened. -/
  opened : List Bytes
  /-- The plaintext it put on the connection. -/
  wire : Bytes
  /-- The value it returned, or `none` while it is still sending. -/
  returned : Option Bool
  /-- The read results it did not use. -/
  unread : List (ReadResult ε)

/-! ## handle_http -/

namespace HttpUtil

/-- The response of `handle_http` to the bytes it has read. -/
def answer : Env → SiteInfo → Bytes → Answer :=
  answerWith (fun _ => .badRequest methodGet) (some .serverError)

/-- `handle_http`. -/
def handleHttp (env : Env) (site : SiteInfo) (recvs : List RecvResult)
    (writes : List WriteResult) : HandlerRun RecvStop :=
  let read := readLoop .again [] recvs
  if read.stop = some .again then ⟨[], none, [], [], some true, read.rest⟩
  else
    let answer := answer env site read.request
    match answer.response with
    | none => ⟨answer.lookups, none, [], [], some false, read.rest⟩
    | some r =>
        let sent := sendHttpResponse env.openFile r writes
        ⟨answer.lookups, some r, sent.opened, sent.wire,
          sent.brokenPipe.map fun broken => !broken && r.keepAlive, read.rest⟩

/-- The bytes read before the handler goes on. -/
def received (recvs : List RecvResult) : Bytes :=
  (readLoop .again [] recvs).request

/-- The handler goes on to answer: reading did not end with EAGAIN. -/
def Answers (recvs : List RecvResult) : Prop :=
  (readLoop .again [] recvs).stop ≠ some .again

instance (recvs : List RecvResult) : Decidable (Answers recvs) :=
  inferInstanceAs (Decidable (_ ≠ _))

/-- Every request is answered, an exception with `500`. -/
theorem exists_response (env : Env) (site : SiteInfo) (request : Bytes) :
    ∃ r, (answer env site request).response = some r := by
  rw [answer]
  rcases request_cases request with rfl | ⟨hne, hmal⟩ | hnames | ⟨hmal, hpost⟩ |
      ⟨hmal, hget, hhead, hpost⟩
  · exact ⟨_, by rw [answerWith_nil]⟩
  · exact ⟨_, by rw [answerWith_malformed _ _ env site hne hmal]⟩
  · rw [answerWith_file _ _ env site hnames]
    split <;> exact ⟨_, rfl⟩
  · exact ⟨_, by rw [answerWith_post _ _ env site hmal hpost]⟩
  · exact ⟨_, by rw [answerWith_other _ _ env site hmal hget hhead hpost]⟩

theorem handleHttp_silent (env : Env) (site : SiteInfo) {recvs : List RecvResult}
    (writes : List WriteResult) (h : ¬ Answers recvs) :
    handleHttp env site recvs writes =
      ⟨[], none, [], [], some true, (readLoop .again [] recvs).rest⟩ := by
  rw [Answers, not_not] at h
  simp [handleHttp, h]

theorem handleHttp_answers (env : Env) (site : SiteInfo) {recvs : List RecvResult}
    (writes : List WriteResult) (h : Answers recvs) {r : Response}
    (hr : (answer env site (received recvs)).response = some r) :
    handleHttp env site recvs writes =
      ⟨(answer env site (received recvs)).lookups, some r,
        (sendHttpResponse env.openFile r writes).opened,
        (sendHttpResponse env.openFile r writes).wire,
        (sendHttpResponse env.openFile r writes).brokenPipe.map fun broken =>
          !broken && r.keepAlive, (readLoop .again [] recvs).rest⟩ := by
  rw [Answers] at h
  rw [received] at hr
  simp [handleHttp, h, hr, received]

end HttpUtil

/-! ## handle_https -/

namespace HttpsUtil

/-- The response of `handle_https` to the plaintext it has read: a malformed
request is answered with its own method, and an exception is not answered. -/
def answer : Env → SiteInfo → Bytes → Answer :=
  answerWith (fun line => .badRequest line.method) none

/-- What `SSL_accept` reports. -/
inductive AcceptResult
  | done
  | want
  | error
  deriving DecidableEq, Repr

/-- What the calls of one `handle_https` return: the first byte in the socket
(`none` if there is none), `SSL_accept`, and the reads and writes behind it. -/
structure TlsResults where
  peek : Option UInt8
  accept : AcceptResult
  reads : List SslReadResult
  writes : List SslWriteResult

/-- The run of `handle_https`, with what it does to the entry of its fd in `ssl_map`. -/
structure HttpsRun where
  run : HandlerRun SslReadStop
  /-- An SSL object was created and entered in `ssl_map`. -/
  created : Bool
  /-- The fd has an entry in `ssl_map` when the handler returns (or as long as it sends). -/
  entry : Bool

/-- Leave without a response. -/
def silent (returned : Bool) (unread : List SslReadResult) : HandlerRun SslReadStop :=
  ⟨[], none, [], [], some returned, unread⟩

/-- The part of `handle_https` behind a finished handshake. -/
def serve (env : Env) (site : SiteInfo) (results : TlsResults) (created : Bool) : HttpsRun :=
  let read := readLoop .want [] results.reads
  if read.stop = some .closed then ⟨silent false read.rest, created, false⟩
  else if read.stop = some .want then ⟨silent true read.rest, created, true⟩
  else
    let answer := answer env site read.request
    match answer.response with
    | none => ⟨⟨answer.lookups, none, [], [], some false, read.rest⟩, created, true⟩
    | some r =>
        let sent := sendHttpsResponse env.openFile r results.writes
        -- 400 frees the object as the other responses without keep-alive do
        let returned := sent.brokenPipe.map fun broken => !broken && r.keepAlive
        ⟨⟨answer.lookups, some r, sent.opened, sent.wire, returned, read.rest⟩, created,
          returned != some false⟩

/-- `handle_https`; `hasEntry` tells whether `ssl_map` has an entry for the fd. -/
def handleHttps (env : Env) (site : SiteInfo) (hasEntry : Bool) (results : TlsResults) :
    HttpsRun :=
  if !hasEntry && results.peek != some 0x16 then ⟨silent false results.reads, false, false⟩
  else
    match results.accept with
    | .want => ⟨silent true results.reads, !hasEntry, true⟩
    -- the object is freed by the worker
    | .error => ⟨silent false results.reads, !hasEntry, true⟩
    | .done => serve env site results !hasEntry

/-- The plaintext read before the handler goes on. -/
def received (results : TlsResults) : Bytes :=
  (readLoop .want [] results.reads).request

/-- The handler goes on to answer: there is an SSL object, its handshake is
done, and reading ended neither with the end of the connection nor with a read
that has to wait. -/
def Answers (hasEntry : Bool) (results : TlsResults) : Prop :=
  (hasEntry = true ∨ results.peek = some 0x16) ∧ results.accept = .done ∧
    (readLoop .want [] results.reads).stop ≠ some .closed ∧
    (readLoop .want [] results.reads).stop ≠ some .want

instance (hasEntry : Bool) (results : TlsResults) : Decidable (Answers hasEntry results) :=
  inferInstanceAs (Decidable (_ ∧ _ ∧ _ ∧ _))

theorem handleHttps_silent (env : Env) (site : SiteInfo) {hasEntry : Bool} {results : TlsResults}
    (h : ¬ Answers hasEntry results) :
    ∃ returned unread, (handleHttps env site hasEntry results).run = silent returned unread := by
  unfold handleHttps
  split
  · exact ⟨_, _, rfl⟩
  · rename_i hpeek
    have hentry : hasEntry = true ∨ results.peek = some 0x16 := by
      simpa [or_iff_not_imp_left] using hpeek
    cases haccept : results.accept with
    | want => exact ⟨_, _, rfl⟩
    | error => exact ⟨_, _, rfl⟩
    | done =>
        dsimp only [serve]
        split
        · exact ⟨_, _, rfl⟩
        · rename_i hclosed
          split
          · exact ⟨_, _, rfl⟩
          · rename_i hwant
            exact absurd ⟨hentry, haccept, hclosed, hwant⟩ h

theorem handleHttps_answers (env : Env) (site : SiteInfo) {hasEntry : Bool} {results : TlsResults}
    (h : Answers hasEntry results) :
    handleHttps env site hasEntry results =
      match (answer env site (received results)).response with
      | none =>
          ⟨⟨(answer env site (received results)).lookups, none, [], [], some false,
            (readLoop .want [] results.reads).rest⟩, !hasEntry, true⟩
      | some r =>
          let sent := sendHttpsResponse env.openFile r results.writes
          let returned := sent.brokenPipe.map fun broken => !broken && r.keepAlive
          ⟨⟨(answer env site (received results)).lookups, some r, sent.opened, sent.wire, returned,
            (readLoop .want [] results.reads).rest⟩, !hasEntry, returned != some false⟩ := by
  obtain ⟨hentry, haccept, hclosed, hwant⟩ := h
  have hpeek : (!hasEntry && results.peek != some 0x16) = false := by
    rcases hentry with hentry | hentry <;> simp [hentry]
  simp only [handleHttps, hpeek, haccept, serve, hclosed, hwant, received, if_false,
    Bool.false_eq_true]

theorem entry_of_returned {env : Env} {site : SiteInfo} {hasEntry : Bool} {results : TlsResults}
    (h : (handleHttps env site hasEntry results).run.returned = some true) :
    (handleHttps env site hasEntry results).entry = true := by
  unfold handleHttps at h ⊢
  split
  · rename_i hpeek
    simp [hpeek, silent] at h
  · rename_i hpeek
    rw [if_neg hpeek] at h
    cases haccept : results.accept with
    | want => rfl
    | error => rfl
    | done =>
        simp only [haccept, serve] at h ⊢
        split
        · rename_i hclosed
          simp [hclosed, silent] at h
        · split
          · rfl
          · rename_i hclosed hwant
            rw [if_neg hclosed, if_neg hwant] at h
            cases hr : (answer env site (readLoop .want [] results.reads).request).response with
            | none => rfl
            | some r =>
                simp only [hr] at h ⊢
                rw [h]
                rfl

/-- An SSL object is created only for an fd without an entry. -/
theorem created_handleHttps (env : Env) (site : SiteInfo) (results : TlsResults) :
    (handleHttps env site true results).created = false := by
  have hpeek : ((!true) && results.peek != some 0x16) = false := rfl
  simp only [handleHttps, hpeek, Bool.false_eq_true, if_false]
  cases results.accept with
  | want => rfl
  | error => rfl
  | done =>
      simp only [serve]
      split
      · rfl
      · split
        · rfl
        · split <;> rfl

end HttpsUtil

/-! ## A small site -/

/-- One page in the root directory. -/
def pages : Env := .ofFiles [(ascii "/srv/index.html", ascii "hello")]

def shop : SiteInfo := ⟨ascii "shop", ascii "/srv"⟩

end Sok
