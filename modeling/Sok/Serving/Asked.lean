import Sok.Http.Request
import Sok.Serving.Framing

/-!
# What a request without a body asks for

Two requests are answered alike, byte for byte and whatever the writes return, exactly
when they ask for the same (`alike_iff_asked_eq`).  What a request asks for is read off
its words, its `Connection` header and the file it names, without the handler.

## Strategy

Forwards, the answer to a request is a function of what it asks for (`sends_answer`).
Backwards, what is asked for is read off the bytes sent: the header block is one that can
be read back, so it determines the status line and the three fields (`eq_of_header_eq`).
The bytes behind it determine the file, unless it is empty or not sent; then the length in
the header block does.
-/

namespace Sok

/-! ## Reading a header block back -/

namespace Response

/-- The status line behind the version. -/
def status (r : Response) : Bytes :=
  decimal r.statusCode ++ ascii " " ++ r.statusText

theorem contentType_fieldMap (r : Response) (hr : r.WellFormed) :
    fieldMap (fun _ => none) (r.fields hr) (ascii "Content-Type") =
      if r.mime ≠ [] then some r.mime else none := by
  have hserver : ascii "Content-Type" ≠ ascii "Server" := by decide
  have hlength : ascii "Content-Type" ≠ ascii "Content-Length" := by decide
  have hconn : ascii "Content-Type" ≠ ascii "Connection" := by decide
  unfold fields fieldMap
  by_cases hmime : r.mime = [] <;> cases r.keepAlive <;>
    simp [hmime, fieldOf, Function.update_of_ne, hserver, hlength, hconn]

theorem connection_fieldMap (r : Response) (hr : r.WellFormed) :
    fieldMap (fun _ => none) (r.fields hr) (ascii "Connection") =
      if r.keepAlive then some (ascii "keep-alive") else none := by
  have htype : ascii "Connection" ≠ ascii "Content-Type" := by decide
  have hserver : ascii "Connection" ≠ ascii "Server" := by decide
  have hlength : ascii "Connection" ≠ ascii "Content-Length" := by decide
  unfold fields fieldMap
  by_cases hmime : r.mime = [] <;> cases r.keepAlive <;>
    simp [hmime, fieldOf, Function.update_of_ne, htype, hserver, hlength]

/-- The space behind the version. -/
abbrev space : UInt8 := 32

/-- Of the body, the header block shows the length. -/
theorem header_congr {a b : Response} (hline : a.statusLine = b.statusLine)
    (hmime : a.mime = b.mime) (hlength : a.body.length = b.body.length)
    (hkeep : a.keepAlive = b.keepAlive) :
    a.header = b.header := by
  rw [header, header, hline, hmime, hlength, hkeep]

/-- A header block determines all that was put in it. -/
theorem eq_of_header_eq {a b : Response} (ha : a.WellFormed) (hb : b.WellFormed)
    (hversionA : space ∉ a.version) (hversionB : space ∉ b.version) (h : a.header = b.header) :
    a.version = b.version ∧ a.status = b.status ∧ a.mime = b.mime ∧
      a.body.length = b.body.length ∧ a.keepAlive = b.keepAlive := by
  have hline : a.statusLine ++ [cr] = b.statusLine ++ [cr] := by
    have hread : getline a.header = getline b.header := by rw [h]
    rw [a.header_eq ha, b.header_eq hb, getline_append (a.lf_notMem_statusLine ha),
      getline_append (b.lf_notMem_statusLine hb)] at hread
    exact (Prod.mk.inj (Option.some.inj hread)).1
  have hfields :
      fieldMap (fun _ => none) (a.fields ha) = fieldMap (fun _ => none) (b.fields hb) := by
    have hread := readResponse_header a ha []
    rw [h, readResponse_header b hb] at hread
    exact (Prod.mk.inj (Option.some.inj hread)).1.symm
  -- the version ends at the first space
  have hparts : ∀ r : Response, r.statusLine = r.version ++ space :: r.status := by
    intro r
    simp [statusLine, status, ascii]
  rw [List.append_left_inj, hparts, hparts] at hline
  have hversion : ∀ r : Response, space ∉ r.version →
      (r.version ++ space :: r.status).takeWhile (· != space) = r.version := by
    intro r hspace
    have hpos : ∀ b ∈ r.version, (b != space) = true := fun b hb => by
      simpa using fun heq : b = space => hspace (heq ▸ hb)
    simp [List.takeWhile_append_of_pos hpos]
  have hversions : a.version = b.version := by
    rw [← hversion a hversionA, hline, hversion b hversionB]
  have hstatus : a.status = b.status := by
    rw [hversions] at hline
    exact (List.cons.inj (List.append_cancel_left hline)).2
  refine ⟨hversions, hstatus, ?_, ?_, ?_⟩
  · have hmime := congrFun hfields (ascii "Content-Type")
    rw [contentType_fieldMap, contentType_fieldMap] at hmime
    by_cases hnilA : a.mime = [] <;> by_cases hnilB : b.mime = [] <;>
      simp_all only [ne_eq, not_true, not_false_iff, if_true, if_false, reduceCtorEq,
        Option.some.injEq]
  · have hlength := congrFun hfields (ascii "Content-Length")
    rw [contentLength_fieldMap, contentLength_fieldMap] at hlength
    calc a.body.length = decimalValue (decimal a.body.length) := (decimalValue_decimal _).symm
      _ = decimalValue (decimal b.body.length) := by rw [Option.some.inj hlength]
      _ = b.body.length := decimalValue_decimal _
  · have hconn := congrFun hfields (ascii "Connection")
    rw [connection_fieldMap, connection_fieldMap] at hconn
    cases hkeepA : a.keepAlive <;> cases hkeepB : b.keepAlive <;> simp [hkeepA, hkeepB] at hconn ⊢

end Response

namespace HttpUtil

/-! ## Answering alike -/

/-- What `handle_http` puts on the connection and returns when it sends `r`. -/
def sends (openFile : Bytes → Option Bytes) (r : Response) (writes : List WriteResult) :
    Bytes × Option Bool :=
  ((sendHttpResponse openFile r writes).wire,
    (sendHttpResponse openFile r writes).brokenPipe.map fun broken => !broken && r.keepAlive)

/-- What a request without a body asks for, as far as the response shows it. -/
inductive Asked
  | malformed
  /-- A file that the cache throws on. -/
  | failing
  /-- A file of `size` bytes; `sent` is what is sent of it, if it is a GET and the file
  opens. -/
  | page (version : Bytes) (keepAlive : Bool) (mime : Bytes) (size : ℕ) (nonempty : 0 < size)
      (sent : Option Bytes)
  /-- A file that is not there. -/
  | missing (version : Bytes) (keepAlive isGet : Bool)
  | post (version : Bytes) (keepAlive : Bool)
  /-- Any other method. -/
  | other (version : Bytes) (keepAlive : Bool)
  deriving DecidableEq

/-- What `request` asks for on a site. -/
def asked (env : Env) (site : SiteInfo) (request : Bytes) : Asked :=
  let line := requestLine request
  if line.Malformed then .malformed
  else if line.method = methodGet ∨ line.method = methodHead then
    let file := requestedFile site.rootDir line.path
    match hget : env.get file with
    | .found content mime =>
        .page line.version line.keepAlive mime content.length
          (List.length_pos_of_ne_nil (env.get_nonempty file content mime hget))
          (if line.method = methodGet then (env.openFile file).map (·.take content.length)
          else none)
    | .missing => .missing line.version line.keepAlive (line.method == methodGet)
    | .throws => .failing
  else if line.method = methodPost then .post line.version line.keepAlive
  else .other line.version line.keepAlive

section

variable {env : Env} {site : SiteInfo} {request : Bytes}

theorem asked_malformed (hmal : (requestLine request).Malformed) :
    asked env site request = .malformed :=
  if_pos hmal

theorem asked_found (hnames : NamesFile request) {content mime : Bytes}
    (hfound : env.get (requestedFile site.rootDir (requestLine request).path) =
      .found content mime) :
    asked env site request =
      .page (requestLine request).version (requestLine request).keepAlive mime content.length
        (List.length_pos_of_ne_nil (env.get_nonempty _ content mime hfound))
        (if (requestLine request).method = methodGet then
          (env.openFile (requestedFile site.rootDir (requestLine request).path)).map
            (·.take content.length)
        else none) := by
  simp only [asked, if_neg hnames.1, if_pos hnames.2]
  split
  · rename_i hfound'
    obtain ⟨rfl, rfl⟩ := CacheAnswer.found.inj (hfound.symm.trans hfound')
    rfl
  · rename_i hmissing
    exact absurd (hfound.symm.trans hmissing) (by simp)
  · rename_i hthrows
    exact absurd (hfound.symm.trans hthrows) (by simp)

theorem asked_missing (hnames : NamesFile request)
    (hmissing : env.get (requestedFile site.rootDir (requestLine request).path) = .missing) :
    asked env site request =
      .missing (requestLine request).version (requestLine request).keepAlive
        ((requestLine request).method == methodGet) := by
  simp only [asked, if_neg hnames.1, if_pos hnames.2]
  split
  · rename_i hfound
    exact absurd (hmissing.symm.trans hfound) (by simp)
  · rfl
  · rename_i hthrows
    exact absurd (hmissing.symm.trans hthrows) (by simp)

theorem asked_throws (hnames : NamesFile request)
    (hthrows : env.get (requestedFile site.rootDir (requestLine request).path) = .throws) :
    asked env site request = .failing := by
  simp only [asked, if_neg hnames.1, if_pos hnames.2]
  split
  · rename_i hfound
    exact absurd (hthrows.symm.trans hfound) (by simp)
  · rename_i hmissing
    exact absurd (hthrows.symm.trans hmissing) (by simp)
  · rfl

theorem asked_post (hmal : ¬ (requestLine request).Malformed)
    (hpost : (requestLine request).method = methodPost) :
    asked env site request =
      .post (requestLine request).version (requestLine request).keepAlive := by
  have hnot : ¬ (methodPost = methodGet ∨ methodPost = methodHead) :=
    not_or.mpr ⟨methodPost_ne_methodGet, methodPost_ne_methodHead⟩
  simp only [asked, if_neg hmal, hpost, if_neg hnot, if_pos]

theorem asked_other (hmal : ¬ (requestLine request).Malformed)
    (hget : (requestLine request).method ≠ methodGet)
    (hhead : (requestLine request).method ≠ methodHead)
    (hpost : (requestLine request).method ≠ methodPost) :
    asked env site request =
      .other (requestLine request).version (requestLine request).keepAlive := by
  simp only [asked, if_neg hmal, hget, hhead, hpost, or_self, if_false]

end

namespace Asked

/-- A response to it, with the body as far as it matters. -/
def response : Asked → Response
  | malformed => .badRequest methodGet
  | failing => .serverError
  | page version keepAlive mime size _ sent =>
      .file version mime (List.replicate size 0) keepAlive
        (if sent.isSome then methodGet else methodHead) (ascii "/")
  | missing version keepAlive isGet =>
      .notFound version keepAlive (if isGet then methodGet else methodHead)
  | post version keepAlive => .echo version [] keepAlive methodPost
  | other version keepAlive => .notImplemented version keepAlive methodPost

/-- The file behind that response. -/
def openFile : Asked → Bytes → Option Bytes
  | page _ _ _ _ _ sent => fun _ => sent
  | _ => fun _ => none

end Asked

/-! ## The response shows what was asked for -/

theorem sends_congr {openA openB : Bytes → Option Bytes} {a b : Response}
    (hheader : a.header = b.header) (hkeep : a.keepAlive = b.keepAlive)
    (hbody : ∀ writes, (sendBody openA a writes).wire = (sendBody openB b writes).wire ∧
      (sendBody openA a writes).brokenPipe = (sendBody openB b writes).brokenPipe)
    (writes : List WriteResult) : sends openA a writes = sends openB b writes := by
  cases writes with
  | nil => rfl
  | cons result results =>
      simp only [sends, sendHttpResponse, hheader, hkeep]
      split
      · simp only [(hbody results).1, (hbody results).2]
      · rfl

theorem sendBody_of_ne_get {openFile : Bytes → Option Bytes} {r : Response}
    (h : r.method ≠ methodGet) (writes : List WriteResult) :
    sendBody openFile r writes = ⟨[], [], some false⟩ := by
  simp [sendBody, h]

/-- Only the part of a file that is announced is sent. -/
theorem sendfileLoop_take (file : Bytes) (size : ℕ) (writes : List WriteResult) :
    sendfileLoop (file.take size) size writes = sendfileLoop file size writes := by
  have hcount : ∀ offset, min (size - offset) ((file.take size).length - offset) =
      min (size - offset) (file.length - offset) := by
    intro offset
    rw [List.length_take]
    omega
  refine Transfer.loop_congr (fun offset result _ => ?_) (fun offset result moved _ hmoved => ?_)
    0 writes
  · simp only [sendfile, hcount]
  · have hle := write_le hmoved
    rw [List.drop_take, List.take_take, Nat.min_eq_left (by omega)]

theorem slash_ne_nil : ascii "/" ≠ [] := by decide

/-- A static file is sent as far as its length was announced, and nothing of it after
a HEAD. -/
theorem sendBody_page {openFile : Bytes → Option Bytes} {version mime content path method : Bytes}
    {keepAlive : Bool} (hcontent : content ≠ []) (hpath : path ≠ []) (nonempty : 0 < content.length)
    (writes : List WriteResult) {sent : Option Bytes}
    (hsent : sent = if method = methodGet then (openFile path).map (·.take content.length)
      else none) :
    let page : Asked := .page version keepAlive mime content.length nonempty sent
    (sendBody openFile (.file version mime content keepAlive method path) writes).wire =
        (sendBody page.openFile page.response writes).wire ∧
      (sendBody openFile (.file version mime content keepAlive method path) writes).brokenPipe =
        (sendBody page.openFile page.response writes).brokenPipe := by
  have hreplicate : List.replicate content.length (0 : UInt8) ≠ [] := by simpa using hcontent
  by_cases hget : method = methodGet
  · rw [if_pos hget] at hsent
    cases hopen : openFile path with
    | none =>
        rw [hopen, Option.map_none] at hsent
        simp [sendBody, Response.file, Asked.response, hsent, hget, hcontent, hpath, hopen,
          methodHead_ne_methodGet]
    | some file =>
        rw [hopen, Option.map_some] at hsent
        simp [sendBody, Response.file, Asked.response, Asked.openFile, hsent, hget, hcontent, hpath,
          hopen, hreplicate, slash_ne_nil, sendfileLoop_take]
  · rw [if_neg hget] at hsent
    simp [sendBody, Response.file, Asked.response, hsent, hget, methodHead_ne_methodGet]

/-- A request without a body is answered as what it asks for. -/
theorem sends_answer {env : Env} {site : SiteInfo} {request : Bytes} {r : Response}
    (hnil : request ≠ []) (hbody : postBody request = [])
    (hr : (answer env site request).response = some r) (writes : List WriteResult) :
    sends env.openFile r writes =
      sends (asked env site request).openFile (asked env site request).response writes := by
  rw [answer] at hr
  rcases request_cases request with hempty | ⟨hne, hmal⟩ | hnames | ⟨hmal, hpost⟩ |
      ⟨hmal, hget, hhead, hpost⟩
  · exact absurd hempty hnil
  · rw [answerWith_malformed _ _ env site hne hmal] at hr
    obtain rfl := Option.some.inj hr
    rw [asked_malformed hmal]
    rfl
  · rw [answerWith_file _ _ env site hnames] at hr
    split at hr
    · rename_i content mime hfound
      obtain rfl := Option.some.inj hr
      rw [asked_found hnames hfound]
      have hcontent := env.get_nonempty _ _ _ hfound
      have hpath := hnames.requestedFile_ne_nil site.rootDir
      -- of the content only its length is in the header block
      exact sends_congr (Response.header_congr (by rfl) (by rfl) (List.length_replicate ..).symm
        (by rfl)) (by rfl) (fun writes => sendBody_page hcontent hpath _ writes rfl) writes
    · rename_i hmissing
      obtain rfl := Option.some.inj hr
      rw [asked_missing hnames hmissing]
      rcases hnames.2 with hget | hhead
      · rw [hget]
        rfl
      · rw [hhead]
        rfl
    · rename_i hthrows
      obtain rfl := Option.some.inj hr
      rw [asked_throws hnames hthrows]
      rfl
  · rw [answerWith_post _ _ env site hmal hpost, hbody] at hr
    obtain rfl := Option.some.inj hr
    rw [asked_post hmal hpost]
    rfl
  · rw [answerWith_other _ _ env site hmal hget hhead hpost] at hr
    obtain rfl := Option.some.inj hr
    rw [asked_other hmal hget hhead hpost]
    -- the body is sent for no other method, whichever it is
    have hsilent : ∀ writes, sendBody env.openFile (.notImplemented (requestLine request).version
        (requestLine request).keepAlive (requestLine request).method) writes =
          ⟨[], [], some false⟩ := sendBody_of_ne_get hget
    refine sends_congr (by rfl) (by rfl) (fun writes => ?_) writes
    rw [hsilent]
    exact ⟨rfl, rfl⟩

/-! ## What was asked for shows in the response -/

/-- What a request can ask for: words and a MIME type that fit a header line, and of a
file no more than its length. -/
structure Asked.Possible (a : Asked) : Prop where
  response : a.response.WellFormed
  version : Response.space ∉ a.response.version
  sent : ∀ file ∈ a.openFile (ascii "/"), file.length ≤ a.response.body.length

theorem wire_sends_once (openFile : Bytes → Option Bytes) (r : Response) :
    (sends openFile r [.full]).1 = r.header := by
  have hsendfile : ∀ file size, (sendfileLoop file size []).out = [] := fun file size => by
    simp [sendfileLoop, Transfer.loop]
  have hwrite : ∀ body, (writeLoop body []).out = [] := fun body => by
    simp [writeLoop, Transfer.loop]
  simp only [sends, sendHttpResponse, safeWrite, write, List.take_length, if_true, sendBody]
  split
  · split <;> simp [hsendfile]
  · split <;> simp [hwrite]

/-- A file that has become empty is sent for ever. -/
theorem returned_sends_empty {version mime : Bytes} {keepAlive : Bool} {size : ℕ} (h : 0 < size) :
    (sends (Asked.page version keepAlive mime size h (some [])).openFile
      (Asked.page version keepAlive mime size h (some [])).response [.full, .full]).2 = none := by
  have hloop : (sendfileLoop [] size [.full]).ended = none := by
    simp [sendfileLoop, Transfer.loop, sendfile, write, h.ne', Transfer.Progress.after]
  simp [sends, sendHttpResponse, safeWrite, write, sendBody, Response.file, Asked.response,
    Asked.openFile, h.ne', slash_ne_nil, hloop]

theorem returned_sends_none {version mime : Bytes} {keepAlive : Bool} {size : ℕ} (h : 0 < size) :
    (sends (Asked.page version keepAlive mime size h none).openFile
      (Asked.page version keepAlive mime size h none).response [.full, .full]).2 =
        some keepAlive := by
  simp [sends, sendHttpResponse, safeWrite, write, sendBody, Response.file, Asked.response,
    methodHead_ne_methodGet]

theorem delivered_page {version mime : Bytes} {keepAlive : Bool} {size : ℕ} (h : 0 < size)
    {sent : Option Bytes} (hsent : ∀ file ∈ sent, file.length ≤ size) :
    delivered (Asked.page version keepAlive mime size h sent).openFile
      (Asked.page version keepAlive mime size h sent).response = sent.getD [] := by
  cases sent with
  | none => simp [delivered, deliveredWith, Asked.response, Response.file, methodHead_ne_methodGet]
  | some file =>
      simp [delivered, deliveredWith, Asked.response, Asked.openFile, Response.file, slash_ne_nil,
        h.ne', List.take_of_length_le (hsent file rfl)]

/-- The bytes sent tell the files apart, but for an empty file that is not sent. -/
theorem sent_eq {version mime : Bytes} {keepAlive : Bool} {size : ℕ} {h : 0 < size}
    {a b : Option Bytes} (hbytes : a.getD [] = b.getD [])
    (hreturned :
      (sends (Asked.page version keepAlive mime size h a).openFile
        (Asked.page version keepAlive mime size h a).response [.full, .full]).2 =
      (sends (Asked.page version keepAlive mime size h b).openFile
        (Asked.page version keepAlive mime size h b).response [.full, .full]).2) : a = b := by
  cases a with
  | none =>
      cases b with
      | none => rfl
      | some file =>
          obtain rfl : [] = file := hbytes
          rw [returned_sends_none, returned_sends_empty] at hreturned
          exact absurd hreturned (by simp)
  | some file =>
      cases b with
      | none =>
          obtain rfl : file = [] := hbytes
          rw [returned_sends_none, returned_sends_empty] at hreturned
          exact absurd hreturned (by simp)
      | some file' => exact congrArg some hbytes

theorem delivered_missing (version : Bytes) (keepAlive isGet : Bool) :
    delivered (Asked.missing version keepAlive isGet).openFile
      (Asked.missing version keepAlive isGet).response =
        if isGet then ascii "404 Not Found" else [] := by
  cases isGet <;>
    simp [delivered, deliveredWith, Asked.response, Response.notFound, methodHead_ne_methodGet]

/-- The status behind the version, by what was asked for. -/
def Asked.status : Asked → Bytes
  | malformed => ascii "400 Bad Request"
  | failing => ascii "500 Internal Server Error"
  | page .. => ascii "200 OK"
  | missing .. => ascii "404 Not Found"
  | post .. => ascii "200 OK"
  | other .. => ascii "501 Not Implemented"

theorem status_response (a : Asked) : a.response.status = a.status := by
  have hok : decimal 200 ++ ascii " " ++ ascii "OK" = ascii "200 OK" := by decide
  have hmissing : decimal 404 ++ ascii " " ++ ascii "Not Found" = ascii "404 Not Found" := by decide
  have hother : decimal 501 ++ ascii " " ++ ascii "Not Implemented" =
      ascii "501 Not Implemented" := by decide
  cases a with
  | malformed => decide
  | failing => decide
  | page => exact hok
  | missing => exact hmissing
  | post => exact hok
  | other => exact hother

/-- What two requests ask for is the same if it is answered alike. -/
theorem eq_of_sends_eq {x y : Asked} (hx : x.Possible) (hy : y.Possible)
    (h : ∀ writes, sends x.openFile x.response writes = sends y.openFile y.response writes) :
    x = y := by
  have hheader : x.response.header = y.response.header := by
    rw [← wire_sends_once x.openFile, h, wire_sends_once]
  obtain ⟨hversion, hstatus, hmime, hlength, hkeep⟩ :=
    Response.eq_of_header_eq hx.response hy.response hx.version hy.version hheader
  -- with every write in full, what follows the header block shows
  have hdelivered : delivered x.openFile x.response = delivered y.openFile y.response := by
    have hwire := congrArg Prod.fst (h [.full, .full])
    rw [sends, sends, wire_sendHttpResponse_full, wire_sendHttpResponse_full, hheader] at hwire
    exact List.append_cancel_left hwire
  have hreturned := congrArg Prod.snd (h [.full, .full])
  rw [status_response, status_response] at hstatus
  -- the status tells the kinds apart, and the length a page from a POST
  cases x with
  | malformed =>
      cases y with
      | malformed => rfl
      | _ => exact absurd hstatus (by simp only [Asked.status]; decide)
  | failing =>
      cases y with
      | failing => rfl
      | _ => exact absurd hstatus (by simp only [Asked.status]; decide)
  | page version keepAlive mime size hpos sent =>
      cases y with
      | page version' keepAlive' mime' size' hpos' sent' =>
          obtain rfl : version = version' := hversion
          obtain rfl : keepAlive = keepAlive' := hkeep
          obtain rfl : mime = mime' := hmime
          obtain rfl : size = size' := by simpa [Asked.response, Response.file] using hlength
          have hsent : ∀ file ∈ sent, file.length ≤ size := by
            simpa [Asked.response, Asked.openFile, Response.file] using hx.sent
          have hsent' : ∀ file ∈ sent', file.length ≤ size := by
            simpa [Asked.response, Asked.openFile, Response.file] using hy.sent
          obtain rfl : sent = sent' := by
            rw [delivered_page hpos hsent, delivered_page hpos hsent'] at hdelivered
            exact sent_eq hdelivered hreturned
          rfl
      | post version' keepAlive' =>
          have hzero : size = 0 := by
            simpa [Asked.response, Response.file, Response.echo] using hlength
          exact absurd hzero hpos.ne'
      | _ => exact absurd hstatus (by simp only [Asked.status]; decide)
  | missing version keepAlive isGet =>
      cases y with
      | missing version' keepAlive' isGet' =>
          obtain rfl : version = version' := hversion
          obtain rfl : keepAlive = keepAlive' := hkeep
          obtain rfl : isGet = isGet' := by
            rw [delivered_missing, delivered_missing] at hdelivered
            revert hdelivered
            cases isGet <;> cases isGet' <;> decide
          rfl
      | _ => exact absurd hstatus (by simp only [Asked.status]; decide)
  | post version keepAlive =>
      cases y with
      | page version' keepAlive' mime' size' hpos' sent' =>
          have hzero : 0 = size' := by
            simpa [Asked.response, Response.file, Response.echo] using hlength
          exact absurd hzero hpos'.ne
      | post version' keepAlive' =>
          obtain rfl : version = version' := hversion
          obtain rfl : keepAlive = keepAlive' := hkeep
          rfl
      | _ => exact absurd hstatus (by simp only [Asked.status]; decide)
  | other version keepAlive =>
      cases y with
      | other version' keepAlive' =>
          obtain rfl : version = version' := hversion
          obtain rfl : keepAlive = keepAlive' := hkeep
          rfl
      | _ => exact absurd hstatus (by simp only [Asked.status]; decide)

theorem space_notMem_version (request : Bytes) :
    Response.space ∉ (requestLine request).version := by
  intro hmem
  exact absurd (isSpace_of_mem_nextToken hmem) (by decide)

theorem possible_asked (env : Env) (site : SiteInfo) (request : Bytes) :
    (asked env site request).Possible := by
  have hlf := Serving.lf_notMem_version request
  have hspace := space_notMem_version request
  have hhttp : Response.space ∉ http11 := by decide
  rcases request_cases request with rfl | ⟨-, hmal⟩ | hnames | ⟨hmal, hpost⟩ |
      ⟨hmal, hget, hhead, hpost⟩
  · rw [asked_malformed malformed_nil]
    exact ⟨Serving.wellFormed_badRequest _, hhttp, by simp [Asked.openFile]⟩
  · rw [asked_malformed hmal]
    exact ⟨Serving.wellFormed_badRequest _, hhttp, by simp [Asked.openFile]⟩
  · cases hget : env.get (requestedFile site.rootDir (requestLine request).path) with
    | found content mime =>
        rw [asked_found hnames hget]
        obtain ⟨-, hmimeLf, htrimmed⟩ := FileCache.getMimeType_fit
          (requestedFile site.rootDir (requestLine request).path)
        rw [← env.get_mime _ _ _ hget] at hmimeLf htrimmed
        refine ⟨Serving.wellFormed_file hlf hmimeLf htrimmed _ _ _ _, hspace, ?_⟩
        intro file hfile
        rw [Asked.openFile] at hfile
        split at hfile
        · obtain ⟨file, -, rfl⟩ := Option.mem_map.mp hfile
          simp [Asked.response, Response.file]
        · exact absurd hfile (by simp)
    | missing =>
        rw [asked_missing hnames hget]
        exact ⟨Serving.wellFormed_notFound hlf _ _, hspace, by simp [Asked.openFile]⟩
    | throws =>
        rw [asked_throws hnames hget]
        exact ⟨Serving.wellFormed_serverError, hhttp, by simp [Asked.openFile]⟩
  · rw [asked_post hmal hpost]
    exact ⟨Serving.wellFormed_echo hlf _ _ _, hspace, by simp [Asked.openFile]⟩
  · rw [asked_other hmal hget hhead hpost]
    exact ⟨Serving.wellFormed_notImplemented hlf _ _, hspace, by simp [Asked.openFile]⟩

/-- A whole header block in the socket is answered as what it asks for. -/
theorem handleHttp_header (env : Env) (site : SiteInfo) {s : Bytes} (hs : IsHeader s)
    (writes : List WriteResult) :
    let run := handleHttp env site (Socket.results ⟨s, false⟩) writes
    (run.wire, run.returned) =
      sends (asked env site s).openFile (asked env site s).response writes := by
  have hread := readLoop_results hs false
  have hall : s.take (blockEnd (s.length - 4 + 4)) = s := by
    rw [List.take_of_length_le]
    rw [hs.four_le, blockEnd]
    omega
  have hanswers : Answers (Socket.results ⟨s, false⟩) := by
    rw [Answers, hread]
    simp
  have hreceived : received (Socket.results ⟨s, false⟩) = s := by
    rw [received, hread, hall]
  have hnil : s ≠ [] := by
    rintro rfl
    exact absurd hs.four_le (by simp)
  have hbody : postBody s = [] := by
    have hfind : Search.find headerEnd s = some (s.length - 4) := hs
    rw [postBody, hfind]
    exact List.drop_eq_nil_of_le hs.four_le.ge
  obtain ⟨r, hr⟩ := exists_response env site s
  have hrun := handleHttp_answers env site writes hanswers (hreceived.symm ▸ hr)
  calc ((handleHttp env site (Socket.results ⟨s, false⟩) writes).wire,
        (handleHttp env site (Socket.results ⟨s, false⟩) writes).returned)
      = sends env.openFile r writes := by rw [hrun, sends]
    _ = sends (asked env site s).openFile (asked env site s).response writes :=
        sends_answer hnil hbody hr writes

/-- Two requests without a body are answered alike exactly when they ask for the same. -/
theorem alike_iff_asked_eq (env : Env) (site : SiteInfo) {s r : Bytes} (hs : IsHeader s)
    (hr : IsHeader r) :
    (∀ writes,
      (handleHttp env site (Socket.results ⟨s, false⟩) writes).wire =
          (handleHttp env site (Socket.results ⟨r, false⟩) writes).wire ∧
        (handleHttp env site (Socket.results ⟨s, false⟩) writes).returned =
          (handleHttp env site (Socket.results ⟨r, false⟩) writes).returned) ↔
      asked env site s = asked env site r := by
  constructor
  · intro halike
    apply eq_of_sends_eq (possible_asked env site s) (possible_asked env site r)
    intro writes
    rw [← handleHttp_header env site hs, ← handleHttp_header env site hr]
    exact Prod.ext (halike writes).1 (halike writes).2
  · intro heq writes
    have hsame := handleHttp_header env site hs writes
    rw [heq, ← handleHttp_header env site hr] at hsame
    exact Prod.mk.inj hsame

end HttpUtil

end Sok
