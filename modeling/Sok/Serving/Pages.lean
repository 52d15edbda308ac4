import Sok.Http.Written
import Sok.Process.Settings
import Sok.Serving.Cached
import Sok.Serving.Confinement
import Sok.Serving.Replies

/-!
# The pages of a site

The parts put together.  A server runs with the settings that were written for it, behind its
cache, and its workers dispatch requests for pages on both protocols.  Whatever the server has done
before, a client that asks on the port of a site gets the files below the root of that site as they
are on the disk at that time, and `404` where there is none.
-/

namespace Sok

/-! ## Pages -/

/-- Whether the client asks for the connection to be left open, in one of the two spellings. -/
def WrittenRequest.staysOpen (q : WrittenRequest) : Bool :=
  lastValue q.fields (ascii "Connection") = some (ascii "keep-alive") ∨
    lastValue q.fields (ascii "Connection") = some (ascii "Keep-Alive")

theorem WrittenRequest.staysOpen_head (q : WrittenRequest) (more : Bytes) :
    (requestLine (q.head ++ more)).keepAlive = q.staysOpen := by
  rw [RequestLine.keepAlive, q.headers_head, WrittenRequest.staysOpen]
  cases lastValue q.fields (ascii "Connection") with
  | none => rfl
  | some value => simp [← Bool.decide_or, Bool.beq_eq_decide_eq]

namespace Serving

open FileCache (Disk DiskFile)
open Server (Settings siteAt)

/-- The file of a page: below the root, and the index page for a slash. -/
def pageFile (rootDir path : Bytes) : Bytes :=
  rootDir ++ if path = ascii "/" then ascii "/index.html" else path

/-- The page a client should get: the bytes of the file and its MIME type. -/
def page (disk : Disk) (rootDir path : Bytes) : Option (Bytes × Bytes) :=
  (disk (pageFile rootDir path)).bind fun file =>
    if file.readable = true ∧ file.bytes ≠ [] then
      some (file.bytes, FileCache.getMimeType (pageFile rootDir path))
    else none

/-- The header fields of a reply. -/
def pageFields (keepAlive : Bool) (body mime : Bytes) : Headers := fun name =>
  if name = ascii "Content-Type" then some mime
  else if name = ascii "Server" then some (ascii "SOK")
  else if name = ascii "Content-Length" then some (decimal body.length)
  else if name = ascii "Connection" then if keepAlive then some (ascii "keep-alive") else none
  else none

/-- What a client should get as the reply to a request for a page. -/
def pageReply (disk : Disk) (rootDir : Bytes) (q : WrittenRequest) : Reply :=
  let found := page disk rootDir q.path
  let body := found.elim (ascii "404 Not Found") Prod.fst
  { version := q.version
    statusCode := if found.isSome then 200 else 404
    values := pageFields q.staysOpen body (found.elim textPlain Prod.snd)
    body := if q.method = methodHead then [] else body }

/-- The response that carries it. -/
def pageResponse (disk : Disk) (rootDir : Bytes) (q : WrittenRequest) : Response :=
  match page disk rootDir q.path with
  | none => .notFound q.version q.staysOpen q.method
  | some (content, mime) =>
      .file q.version mime content q.staysOpen q.method (pageFile rootDir q.path)

section

variable {disk : Disk} {rootDir path : Bytes} {q : WrittenRequest}

theorem requestedFile_eq_pageFile (hpath : path ≠ []) :
    requestedFile rootDir path = pageFile rootDir path := by
  rw [requestedFile_eq hpath, pageFile]
  split <;> rfl

theorem current_eq_page :
    disk.current (pageFile rootDir path) =
      (page disk rootDir path).elim .missing fun found => .found found.1 found.2 := by
  unfold Disk.current page
  cases disk (pageFile rootDir path) with
  | none => rfl
  | some file => by_cases hfile : file.readable = true ∧ file.bytes ≠ [] <;> grind

theorem openOn_of_page {found : Bytes × Bytes} (h : page disk rootDir path = some found) :
    openOn disk (pageFile rootDir path) = some found.1 := by
  unfold page at h
  unfold openOn
  obtain ⟨file, hfile, hfound⟩ := Option.bind_eq_some_iff.mp h
  split at hfound
  · next hread =>
      obtain rfl := Option.some.inj hfound
      rw [hfile, Option.bind_some, if_pos hread.1]
  · exact absurd hfound (by simp)

theorem values_eq_pageFields (r : Response) :
    r.values = pageFields r.keepAlive r.body r.mime := by
  have hnames : [ascii "Content-Type", ascii "Server", ascii "Content-Length",
      ascii "Connection"].Nodup := by
    decide
  funext name
  unfold Response.values pageFields
  by_cases hconnection : name = ascii "Connection"
  · subst hconnection
    grind
  · grind

theorem reply_pageResponse (head : Bool) (hhead : head = decide (q.method = methodHead)) :
    (pageResponse disk rootDir q).reply head = pageReply disk rootDir q := by
  have hbranch : ∀ body : Bytes,
      (if head then [] else body) = if q.method = methodHead then [] else body := by
    intro body
    rw [hhead]
    simp
  unfold pageResponse pageReply Response.reply
  rw [values_eq_pageFields, hbranch]
  cases page disk rootDir q.path <;> rfl

/-! ## The answer -/

theorem get_plainEnv (q : WrittenRequest) :
    (plainEnv disk).get (requestedFile rootDir q.path) =
      (page disk rootDir q.path).elim .missing fun found => .found found.1 found.2 := by
  rw [requestedFile_eq_pageFile q.path_word.1]
  exact current_eq_page

variable (malformed : RequestLine → Response) (thrown : Option Response) {site : SiteInfo}

theorem answerWith_page (hmethod : q.method = methodGet ∨ q.method = methodHead) (more : Bytes) :
    (answerWith malformed thrown (plainEnv disk) site (q.head ++ more)).response =
      some (pageResponse disk site.rootDir q) := by
  have hnames : NamesFile (q.head ++ more) := by
    refine ⟨q.not_malformed more, ?_⟩
    rw [q.method_head]
    exact hmethod
  rw [answerWith_file malformed thrown _ site hnames, q.path_head, q.version_head, q.method_head,
    q.staysOpen_head, get_plainEnv, pageResponse, requestedFile_eq_pageFile q.path_word.1]
  cases page disk site.rootDir q.path <;> rfl

/-- The file of the page has not changed. -/
theorem unchanged_pageResponse : Unchanged (openOn disk) (pageResponse disk rootDir q) := by
  unfold pageResponse
  cases hpage : page disk rootDir q.path with
  | none => exact fun hfile => absurd rfl hfile
  | some found => exact fun _ => openOn_of_page hpage

/-- A request for a page keeps the framing when the sender of the file sends all of it. -/
theorem keepsFraming_page {malformed : Bytes → Prop} {whole : Bytes → Bytes → Prop} {silent : Prop}
    (hmethod : q.method = methodGet ∨ q.method = methodHead)
    (hwhole : ∀ found ∈ page disk site.rootDir q.path, whole found.1 found.1) (more : Bytes) :
    KeepsFraming malformed whole silent (plainEnv disk) site (q.head ++ more) := by
  rcases hmethod with hget | hhead
  · refine keepsFraming_get (q.not_malformed more) ?_ fun content mime hfound => ?_
    · rw [q.method_head]
      exact hget
    · rw [q.path_head] at hfound ⊢
      cases hpage : page disk site.rootDir q.path with
      | none =>
          rw [get_plainEnv, hpage] at hfound
          exact absurd hfound (by simp)
      | some found =>
          rw [get_plainEnv, hpage] at hfound
          obtain ⟨rfl, rfl⟩ := CacheAnswer.found.inj hfound
          rw [requestedFile_eq_pageFile q.path_word.1]
          exact ⟨found.1, openOn_of_page hpage, hwhole found hpage⟩
  · refine Or.inr ?_
    dsimp only
    rw [if_neg (q.not_malformed more), q.method_head, q.path_head, hhead,
      if_neg methodHead_ne_methodGet, if_pos rfl, get_plainEnv]
    cases page disk site.rootDir q.path with
    | none => exact fun hthrows => absurd hthrows (by simp)
    | some found => exact fun hthrows => absurd hthrows (by simp)

end

theorem length_decimal_le {n k : ℕ} (hk : 0 < k) (h : n < 10 ^ k) : (decimal n).length ≤ k := by
  rw [decimal, List.length_map]
  exact (Nat.length_toDigits_le_iff (by decide) hk).mpr h

/-- The header block is not much longer than the version that it repeats. -/
theorem length_header_pageResponse {disk : Disk} {rootDir : Bytes} {q : WrittenRequest}
    (hsize : ∀ found ∈ page disk rootDir q.path, found.1.length < 0x80000000) :
    (pageResponse disk rootDir q).header.length ≤ q.version.length + 138 := by
  have hle := (pageResponse disk rootDir q).length_header_le
  unfold pageResponse at hle ⊢
  cases hpage : page disk rootDir q.path with
  | none =>
      have hstatus : (ascii "Not Found").length = 9 := rfl
      have hcode : (decimal 404).length ≤ 3 := length_decimal_le (by decide) (by decide)
      have hmime : textPlain.length = 10 := rfl
      have hbody : (decimal (ascii "404 Not Found").length).length ≤ 2 :=
        length_decimal_le (by decide) (by decide)
      rw [hpage] at hle
      simp only [Response.notFound, hstatus, hmime] at hle hcode hbody ⊢
      omega
  | some found =>
      have hstatus : (ascii "OK").length = 2 := rfl
      have hcode : (decimal 200).length ≤ 3 := length_decimal_le (by decide) (by decide)
      have hbody : (decimal found.1.length).length ≤ 10 :=
        length_decimal_le (by decide) ((hsize found hpage).trans (by decide))
      have hmime : found.2.length ≤ 37 := by
        obtain ⟨file, -, hfound⟩ := Option.bind_eq_some_iff.mp hpage
        split at hfound
        · obtain rfl := Option.some.inj hfound
          exact FileCache.length_getMimeType_le _
        · exact absurd hfound (by simp)
      rw [hpage] at hle
      simp only [Response.file, hstatus] at hle hcode ⊢
      omega

/-! ## Requests as they arrive -/

/-- A request that reaches a worker: the server at that time, the bytes that `dispatch_protocol`
peeks at, whether the fd has an SSL object, and what the calls of the handler return. -/
structure Arrival where
  server : CachedServer
  request : WrittenRequest
  peeked : Bytes
  hasEntry : Bool
  calls : Calls

namespace Arrival

def head (a : Arrival) : Bool := a.request.method = methodHead

/-- What `dispatch_protocol` does with it. -/
def run (a : Arrival) (config : YamlReader) (port : Port) : DispatchRun :=
  dispatchProtocol config port a.server.env (some a.peeked) a.hasEntry a.calls

/-- It comes over plain TCP, is read and answered in full. -/
def Plain (a : Arrival) : Prop :=
  (∃ more, HttpUtil.received a.calls.recvs = a.request.head ++ more ∧
    a.peeked <+: a.request.head ++ more) ∧
    5 ≤ a.peeked.length ∧ WritesInFull a.calls.writes

/-- It comes over TLS, is read and answered in full, and what is sent at once fits an `int`. -/
def Tls (a : Arrival) : Prop :=
  looksTls a.peeked = true ∧ (a.hasEntry = true ∨ a.calls.tls.peek = some 0x16) ∧
    a.calls.tls.accept = .done ∧
    (∃ more, HttpsUtil.received a.calls.tls = a.request.head ++ more) ∧
    WritesAllInFull a.calls.tls.writes ∧ a.request.version.length < 0x40000000 ∧
    ∀ path, ∀ file ∈ a.server.disk path, file.bytes.length < 0x80000000

/-- A GET or a HEAD that reaches a server in one of its states. -/
def Regular (a : Arrival) : Prop :=
  cachedSystem.Reachable NeverBack a.server ∧
    (a.request.method = methodGet ∨ a.request.method = methodHead) ∧ (a.Plain ∨ a.Tls)

variable {a : Arrival}

/-- The first bytes of a request with one of the two methods. -/
theorem exists_peeked {peeked bytes : Bytes} {q : WrittenRequest}
    (hmethod : q.method = methodGet ∨ q.method = methodHead) (hpeeked : peeked <+: q.head ++ bytes)
    (hlength : 5 ≤ peeked.length) :
    ∃ word ∈ [ascii "GET ", ascii "HEAD "], word <+: peeked := by
  have hhead : q.method ++ ascii " " <+: q.head ++ bytes := by
    refine ⟨q.path ++ 32 :: q.version ++ crlf ++ (q.fields.flatMap Field.render ++ crlf) ++ bytes, ?_⟩
    simp [WrittenRequest.head, WrittenRequest.line, ascii]
  have hshort : (q.method ++ ascii " ").length ≤ 5 := by
    rcases hmethod with hget | hhead <;> simp [*, methodGet, methodHead, ascii]
  refine ⟨q.method ++ ascii " ", ?_, List.prefix_of_prefix_length_le hhead hpeeked
    (hshort.trans hlength)⟩
  rcases hmethod with hget | hhead
  · rw [hget]
    decide
  · rw [hhead]
    decide

theorem Plain.detect (h : a.Plain)
    (hmethod : a.request.method = methodGet ∨ a.request.method = methodHead) :
    detect a.peeked = .http := by
  obtain ⟨⟨more, -, hpeeked⟩, hlength, -⟩ := h
  obtain ⟨word, hword, rest, hrest⟩ := exists_peeked hmethod hpeeked hlength
  have hwords : ∀ word ∈ [ascii "GET ", ascii "HEAD "], word ∈ httpWords := by decide
  have hhttp : looksHttp a.peeked = true := looksHttp_iff.mpr ⟨word, hwords word hword, rest, hrest⟩
  have htls : looksTls a.peeked = false := by
    rw [← hrest]
    rcases List.mem_cons.mp hword with rfl | hword
    · rfl
    · rcases List.mem_singleton.mp hword with rfl
      rfl
  rw [Sok.detect, htls, hhttp]
  rfl

theorem stop_eq_none {ε : Type} {idle : ε} {results : List (ReadResult ε)} {q : WrittenRequest}
    {more : Bytes} (h : (readLoop idle [] results).request = q.head ++ more) :
    (readLoop idle [] results).stop = none := by
  rw [readLoop_stop_eq_none_iff idle (by decide), h]
  exact q.headerEnd_suffix_head.isInfix.trans (List.prefix_append _ _).isInfix

/-- The reply to a request, as the handler puts it on the connection. -/
structure Delivers (a : Arrival) (site : SiteInfo) (run : DispatchRun) : Prop where
  wire : run.wire = (pageResponse a.server.disk site.rootDir a.request).header ++
    (pageResponse a.server.disk site.rootDir a.request).payload a.head
  returned : run.returned = some a.request.staysOpen

theorem keepAlive_pageResponse {disk : Disk} {rootDir : Bytes} {q : WrittenRequest} :
    (pageResponse disk rootDir q).keepAlive = q.staysOpen := by
  unfold pageResponse
  cases page disk rootDir q.path <;> rfl

/-- What a handler decides on that has been called orderly is the page. -/
theorem delivers_of_replies {call : Call} {r : Response} {site : SiteInfo} {run : DispatchRun}
    (hreplies : call.Replies r)
    (hpage : call.response = some (pageResponse a.server.disk site.rootDir a.request))
    (hhead : call.head = a.head) (hwire : run.wire = call.wire)
    (hreturned : run.returned = call.returned) : a.Delivers site run := by
  obtain rfl : r = pageResponse a.server.disk site.rootDir a.request :=
    Option.some.inj (hreplies.response.symm.trans hpage)
  refine ⟨?_, ?_⟩
  · rw [hwire, hreplies.wire, hhead]
  · rw [hreturned, hreplies.returned, keepAlive_pageResponse]

theorem Plain.delivers (h : a.Plain) (hcurrent : Current a.server)
    (hmethod : a.request.method = methodGet ∨ a.request.method = methodHead)
    {config : YamlReader} {port : Port} {site : SiteInfo}
    (hsite : SiteInfo.ofPort config port = .ok site) : a.Delivers site (a.run config port) := by
  have hdetect := h.detect hmethod
  obtain ⟨⟨more, hreceived, -⟩, -, hwrites⟩ := h
  have hanswers : HttpUtil.Answers a.calls.recvs := by
    unfold HttpUtil.Answers
    rw [stop_eq_none hreceived]
    simp
  have hresponse : (HttpUtil.answer (plainEnv a.server.disk) site
      (HttpUtil.received a.calls.recvs)).response =
        some (pageResponse a.server.disk site.rootDir a.request) := by
    rw [hreceived]
    exact answerWith_page _ _ hmethod more
  have horderly : (Call.http (plainEnv a.server.disk) site a.calls.recvs a.calls.writes).Orderly := by
    refine ⟨hanswers, hwrites, ?_, fun r hr => ?_⟩
    · rw [hreceived]
      exact keepsFraming_page hmethod (fun found _ => Nat.le_refl found.1.length) more
    · obtain rfl := Option.some.inj (hresponse.symm.trans hr)
      exact unchanged_pageResponse
  obtain ⟨r, hreplies⟩ := Call.replies_http horderly
  have hrun : a.run config port = .http (HttpUtil.handleHttp (plainEnv a.server.disk) site
      a.calls.recvs a.calls.writes) := by
    rw [Arrival.run, dispatchProtocol_http hdetect hsite, hcurrent.env_eq]
  refine delivers_of_replies hreplies ?_ ?_ ?_ ?_
  · rw [Call.response, HttpUtil.handleHttp_answers _ site _ hanswers hresponse]
  · rw [Call.head, Call.request, hreceived, a.request.method_head]
    rfl
  · rw [hrun]
    rfl
  · rw [hrun]
    rfl

theorem Tls.delivers (h : a.Tls) (hcurrent : Current a.server)
    (hmethod : a.request.method = methodGet ∨ a.request.method = methodHead)
    {config : YamlReader} {port : Port} {site : SiteInfo}
    (hsite : SiteInfo.ofPort config port = .ok site) : a.Delivers site (a.run config port) := by
  obtain ⟨htls, hentry, haccept, ⟨more, hreceived⟩, hwrites, hversion, hsize⟩ := h
  have hdetect : Sok.detect a.peeked = .https := if_pos htls
  have hanswers : HttpsUtil.Answers a.hasEntry a.calls.tls := by
    unfold HttpsUtil.Answers
    rw [stop_eq_none hreceived]
    exact ⟨hentry, haccept, by simp, by simp⟩
  have hresponse : (HttpsUtil.answer (plainEnv a.server.disk) site
      (HttpsUtil.received a.calls.tls)).response =
        some (pageResponse a.server.disk site.rootDir a.request) := by
    rw [hreceived]
    exact answerWith_page _ _ hmethod more
  have hsmall : ∀ found ∈ page a.server.disk site.rootDir a.request.path,
      found.1.length < 0x80000000 := by
    intro found hfound
    obtain ⟨file, hfile, hpage⟩ := Option.bind_eq_some_iff.mp hfound
    split at hpage
    · obtain rfl := Option.some.inj hpage
      exact hsize _ file hfile
    · exact absurd hpage (by simp)
  have horderly : (Call.https (plainEnv a.server.disk) site a.hasEntry a.calls.tls).Orderly := by
    refine ⟨hanswers, hwrites, fun r hr => ?_, ?_, _, hresponse, unchanged_pageResponse⟩
    · obtain rfl := Option.some.inj (hresponse.symm.trans hr)
      have hheader := length_header_pageResponse hsmall
      omega
    · rw [hreceived]
      refine keepsFraming_page hmethod (fun found hfound => ?_) more
      rw [toInt_of_lt (hsmall found hfound), Int.toNat_natCast]
  obtain ⟨r, hreplies⟩ := Call.replies_https horderly
  have hrun : a.run config port = .https (HttpsUtil.handleHttps (plainEnv a.server.disk) site
      a.hasEntry a.calls.tls) := by
    rw [Arrival.run, dispatchProtocol_https hdetect hsite, hcurrent.env_eq]
  refine delivers_of_replies hreplies ?_ ?_ ?_ ?_
  · rw [Call.response, HttpsUtil.handleHttps_answers _ site hanswers, hresponse]
  · rw [Call.head, Call.request, hreceived, a.request.method_head]
    rfl
  · rw [hrun]
    rfl
  · rw [hrun]
    rfl

/-- The client reads the reply, and goes on behind it. -/
theorem Delivers.readReply {site : SiteInfo} {run : DispatchRun} (h : a.Delivers site run)
    (hmethod : a.request.method = methodGet ∨ a.request.method = methodHead) (rest : Bytes) :
    Sok.readReply a.head (run.wire ++ rest) =
      some (pageReply a.server.disk site.rootDir a.request, rest) := by
  have hresponse : (HttpUtil.answer (plainEnv a.server.disk) site (a.request.head ++ [])).response =
      some (pageResponse a.server.disk site.rootDir a.request) := answerWith_page _ _ hmethod []
  have hversion : (pageResponse a.server.disk site.rootDir a.request).version ≠ [] := by
    unfold pageResponse
    cases page a.server.disk site.rootDir a.request.path with
    | none => exact a.request.version_word.1
    | some found => exact a.request.version_word.1
  rw [h.wire, (printable_http hresponse).readReply hversion, reply_pageResponse a.head rfl]

end Arrival

/-! ## A server with its settings -/

/-- From the replies on one connection the client reads one page after the other. -/
theorem readReplies_arrivals {site : SiteInfo} {config : YamlReader} {port : Port}
    {arrivals : List Arrival} (hregular : ∀ a ∈ arrivals, a.Regular)
    (hdelivers : ∀ a ∈ arrivals, a.Delivers site (a.run config port)) :
    readReplies (arrivals.map Arrival.head) (arrivals.flatMap fun a => (a.run config port).wire) =
      some (arrivals.map fun a => pageReply a.server.disk site.rootDir a.request, []) := by
  induction arrivals with
  | nil => rfl
  | cons a arrivals ih =>
      have hrest := ih (fun other hother => hregular other (List.mem_cons_of_mem a hother))
        fun other hother => hdelivers other (List.mem_cons_of_mem a hother)
      rw [List.map_cons, List.flatMap_cons, readReplies,
        (hdelivers a List.mem_cons_self).readReply (hregular a List.mem_cons_self).2.1,
        Option.bind_some, hrest]
      rfl

/-- **The client gets the pages of the site.**  A server has loaded the settings that were written
for it.  Requests for pages reach it on one connection to a port of a site, each in some state of
the server, whatever it has served before and however its files have changed.  Then the client reads
one reply to each of them, in order and with nothing left: the file below the root of the site as it
is on the disk at that time, or `404`; and the connection is left open exactly if it asks for it. -/
theorem pages_served (settings : Settings) {doc : List Bytes} {text : Bytes}
    (hdoc : Yaml.Inserted settings.render doc)
    (htext : text = Yaml.written doc ∨ text ++ [lf] = Yaml.written doc) (config : YamlReader) :
    ∃ reader, load config (.contents text) = some (reader, none) ∧
      ∀ (port : Port) (arrivals : List Arrival), (∀ a ∈ arrivals, a.Regular) →
        readReplies (arrivals.map Arrival.head)
            (arrivals.flatMap fun a => (a.run reader port).wire) =
          some (arrivals.map fun a =>
            pageReply a.server.disk (siteAt port settings.sites).rootDir a.request, []) ∧
        ∀ a ∈ arrivals, (a.run reader port).returned = some a.request.staysOpen := by
  have hparse : ConfigFile.parse (.contents text) = .ok ⟨settings.toData⟩ :=
    settings.parse_settings hdoc htext
  refine ⟨⟨settings.toData⟩, by rw [load, hparse], fun port arrivals hregular => ?_⟩
  have hsite : SiteInfo.ofPort ⟨settings.toData⟩ port = .ok (siteAt port settings.sites) := by
    rw [SiteInfo.ofPort, settings.getArray_servers]
    exact Server.search_sites port settings.sites
  have hdelivers : ∀ a ∈ arrivals, a.Delivers (siteAt port settings.sites)
      (a.run ⟨settings.toData⟩ port) := by
    intro a ha
    obtain ⟨hreachable, hmethod, hplain | htls⟩ := hregular a ha
    · exact hplain.delivers (current_of_reachable hreachable) hmethod hsite
    · exact htls.delivers (current_of_reachable hreachable) hmethod hsite
  exact ⟨readReplies_arrivals hregular hdelivers, fun a ha => (hdelivers a ha).returned⟩

theorem connection_name : Trimmed (ascii "Connection") ∧ colon ∉ ascii "Connection" ∧
    lf ∉ ascii "Connection" := by
  decide

theorem keepAlive_value : Trimmed (ascii "keep-alive") ∧ lf ∉ ascii "keep-alive" := by
  decide

theorem isWord_methodGet : IsWord methodGet := by decide

theorem isWord_slash : IsWord (ascii "/") := by decide

theorem isWord_http11 : IsWord http11 := by decide

/-- The index page is asked for, and the connection is to stay open. -/
def frontPage : WrittenRequest where
  method := methodGet
  path := ascii "/"
  version := http11
  fields := [Response.fieldOf (ascii "Connection") (ascii "keep-alive") connection_name
    keepAlive_value]
  body := []
  method_word := isWord_methodGet
  path_word := isWord_slash
  version_word := isWord_http11

def asksFront (server : CachedServer) : Arrival where
  server := server
  request := frontPage
  peeked := frontPage.bytes.take 16
  hasEntry := false
  calls := ⟨[.data ⟨frontPage.bytes, by decide, by decide⟩], [.full, .full],
    ⟨none, .error, [], []⟩⟩

theorem regular_asksFront {server : CachedServer} (h : cachedSystem.Reachable NeverBack server) :
    (asksFront server).Regular := by
  have hread : HttpUtil.received [.data ⟨frontPage.bytes, by decide, by decide⟩] =
      frontPage.head ++ [] := by
    decide
  exact ⟨h, Or.inl rfl, Or.inl ⟨⟨[], hread, List.take_prefix 16 frontPage.bytes⟩,
    (by decide : 5 ≤ (frontPage.bytes.take 16).length), le_rfl, by simp [asksFront]⟩⟩

/-- A server with one page on its disk. -/
def early : CachedServer :=
  fresh fun path => if path = ascii "/srv/blog/index.html" then some ⟨ascii "old", 100, true⟩
    else none

/-- The page is read, and then changed. -/
def rewritten : List Event :=
  [.http ⟨ascii "blog", ascii "/srv/blog"⟩ (asksFront early).calls.recvs [.full, .full],
    .change (ascii "/srv/blog/index.html") (some ⟨ascii "new", 101, true⟩)]

theorem pages_served_rewritten : ∃ reader late,
    load YamlReader.empty (.contents (Yaml.written Server.twoSites.render)) =
        some (reader, none) ∧
      cachedSystem.exec early rewritten = some late ∧
      (readReplies [false, false] (((asksFront early).run reader 8080).wire ++
          ((asksFront late).run reader 8080).wire)).map
        (fun read => read.1.map Reply.body) = some [ascii "old", ascii "new"] := by
  have hrun : (cachedSystem.exec early rewritten).map
      (fun late => late.disk (ascii "/srv/blog/index.html")) =
        some (some ⟨ascii "new", 101, true⟩) := by
    decide +kernel
  obtain ⟨late, hexec, hdisk⟩ := Option.map_eq_some_iff.mp hrun
  have hearly : cachedSystem.Reachable NeverBack early :=
    Transition.System.Reachable.initial ⟨⟨100, rfl⟩, rfl⟩
  have hlate : cachedSystem.Reachable NeverBack late := hearly.exec (by decide +kernel) hexec
  obtain ⟨reader, hload, hserved⟩ := pages_served Server.twoSites (Yaml.inserted_refl _)
    (Or.inl rfl) YamlReader.empty
  obtain ⟨hread, -⟩ := hserved 8080 [asksFront early, asksFront late]
    (List.forall_mem_cons.mpr ⟨regular_asksFront hearly,
      List.forall_mem_singleton.mpr (regular_asksFront hlate)⟩)
  have hnew : (pageReply late.disk (ascii "/srv/blog") frontPage).body = ascii "new" := by
    have hpage : page late.disk (ascii "/srv/blog") frontPage.path =
        some (ascii "new", FileCache.getMimeType (ascii "/srv/blog/index.html")) := by
      rw [page, show pageFile (ascii "/srv/blog") frontPage.path = ascii "/srv/blog/index.html"
        by decide, hdisk]
      rfl
    rw [pageReply, hpage]
    rfl
  refine ⟨reader, late, hload, hexec, ?_⟩
  simp only [List.map_cons, List.map_nil, List.flatMap_cons, List.flatMap_nil,
    List.append_nil] at hread
  have hheads : [false, false] = [(asksFront early).head, (asksFront late).head] := rfl
  rw [hheads, hread, ← hnew]
  rfl

end Serving

end Sok
