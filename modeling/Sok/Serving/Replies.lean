import Sok.Serving.Agreement
import Sok.Serving.HeaderBlock

/-!
# What a client reads on a connection

A client that has sent several requests gets the responses one behind the other.  It reads the
status line and the header fields up to the blank line, then as many bytes as `Content-Length` says,
or none if the request was a HEAD, and goes on behind them.  As long as every request keeps the
framing, the client gets from the bytes exactly the responses that the handlers decided on, and
finds in each whether the server leaves the connection open.

## Strategy

One response is read back whatever follows it (`Printable.readReply`): the header block by
the parser of the handlers, the body by its length.  A call that is orderly puts exactly
one response on the wire (`Orderly.replies`), by way of the two handlers' framing results.
The rest is an induction on the list of calls in which the reader is left at what the
later calls send.
-/

namespace Sok

/-! ## The client -/

/-- What a client gets as the answer to a request. -/
structure Reply where
  version : Bytes
  statusCode : ℕ
  values : Headers
  body : Bytes

/-- Read one answer; `head` tells whether the request was a HEAD. -/
def readReply (head : Bool) (wire : Bytes) : Option (Reply × Bytes) :=
  (getline wire).bind fun line =>
    let (values, payload) := HttpUtil.parseHeaders line.2
    (values (ascii "Content-Length")).bind fun digits =>
      let count := if head then 0 else decimalValue digits
      if count ≤ payload.length then
        let (version, rest) := nextToken line.1
        some (⟨version, decimalValue (nextToken rest).1, values, payload.take count⟩,
          payload.drop count)
      else none

/-- Read the answers to several requests, one after the other. -/
def readReplies : List Bool → Bytes → Option (List Reply × Bytes)
  | [], wire => some ([], wire)
  | head :: heads, wire =>
      (readReply head wire).bind fun first =>
        (readReplies heads first.2).map fun others => (first.1 :: others.1, others.2)

namespace Response

/-- The response as a client should get it. -/
def reply (r : Response) (head : Bool) : Reply where
  version := r.version
  statusCode := r.statusCode
  values := r.values
  body := if head then [] else r.body

/-- The body that belongs behind the header block. -/
def payload (r : Response) (head : Bool) : Bytes := if head then [] else r.body

variable {r : Response}

theorem Printable.status_words (h : r.Printable) (hversion : r.version ≠ []) :
    (nextToken (r.statusLine ++ [cr])).1 = r.version ∧
      decimalValue (nextToken (nextToken (r.statusLine ++ [cr])).2).1 = r.statusCode := by
  have hsplit : r.statusLine ++ [cr] =
      r.version ++ 32 :: (decimal r.statusCode ++ 32 :: (r.statusText ++ [cr])) := by
    simp [statusLine, ascii]
  have hdigit : ∀ b ∈ decimal r.statusCode, isSpace b = false := by
    intro b hb
    obtain ⟨hlow, -⟩ := mem_decimal hb
    by_contra hspace
    have hsmall : b ≤ 32 := by
      simp only [isSpace, Bool.not_eq_false] at hspace
      grind
    exact absurd (UInt8.le_trans hlow hsmall) (by decide)
  have hcode : decimal r.statusCode ≠ [] := by simp [decimal, Nat.toDigits_ne_nil]
  have hfirst := nextToken_append (decimal r.statusCode ++ 32 :: (r.statusText ++ [cr])) hversion
    h.version (by decide : isSpace 32 = true)
  have hskip : nextToken (32 :: (decimal r.statusCode ++ 32 :: (r.statusText ++ [cr]))) =
      nextToken (decimal r.statusCode ++ 32 :: (r.statusText ++ [cr])) := by
    simp [nextToken, isSpace]
  have hsecond := nextToken_append (r.statusText ++ [cr]) hcode hdigit
    (by decide : isSpace 32 = true)
  rw [hsplit, hfirst]
  exact ⟨rfl, by rw [hskip, hsecond, decimalValue_decimal]⟩

/-- A response is read back, and the client goes on behind it. -/
theorem Printable.readReply (h : r.Printable) (hversion : r.version ≠ []) (head : Bool)
    (rest : Bytes) :
    readReply head (r.header ++ r.payload head ++ rest) = some (r.reply head, rest) := by
  obtain ⟨hfirst, hcode⟩ := h.status_words hversion
  have hlength : r.values (ascii "Content-Length") = some (decimal r.body.length) := by
    rw [← h.fieldMap_fields]
    exact r.contentLength_fieldMap h.wellFormed
  have hcount : (if head then 0 else decimalValue (decimal r.body.length)) =
      (r.payload head).length := by
    rw [decimalValue_decimal]
    cases head <;> rfl
  have hline : getline (r.header ++ r.payload head ++ rest) = some (r.statusLine ++ [cr],
      (r.fields h.wellFormed).flatMap Field.render ++ crlf ++ (r.payload head ++ rest)) := by
    rw [r.header_eq h.wellFormed, List.append_assoc, List.append_assoc, List.cons_append,
      getline_append (r.lf_notMem_statusLine h.wellFormed)]
  rw [Sok.readReply, hline, Option.bind_some]
  simp only [parseHeaders_render, h.fieldMap_fields, hlength, Option.bind_some, hcount,
    List.length_append, Nat.le_add_right, if_true, hfirst, hcode, List.take_left, List.drop_left]
  rfl

/-- The client finds in the header block whether the connection stays open. -/
theorem connection_values (r : Response) :
    r.values (ascii "Connection") = some (ascii "keep-alive") ↔ r.keepAlive = true := by
  have hlength : ascii "Connection" ≠ ascii "Content-Length" := by decide
  have hserver : ascii "Connection" ≠ ascii "Server" := by decide
  have htype : ascii "Connection" ≠ ascii "Content-Type" := by decide
  cases hkeep : r.keepAlive <;> simp [values, hkeep, hlength, hserver, htype]

end Response

namespace Serving

/-! ## One response -/

/-- The file behind the response has not changed since it was cached. -/
def Unchanged (openFile : Bytes → Option Bytes) (r : Response) : Prop :=
  r.filePath ≠ [] → openFile r.filePath = some r.body

instance (openFile : Bytes → Option Bytes) (r : Response) : Decidable (Unchanged openFile r) :=
  inferInstanceAs (Decidable (_ → _))

/-- A payload of the right length is the payload of the response. -/
theorem delivered_of_counted {piece : Bytes → Bytes} {openFile : Bytes → Option Bytes}
    {r : Response} {request : Bytes} (hunchanged : Unchanged openFile r)
    (hpiece : piece r.body <+: r.body)
    (hcounted : Counted request r (deliveredWith piece openFile r)) :
    deliveredWith piece openFile r = r.payload ((requestLine request).method = methodHead) := by
  unfold Counted at hcounted
  unfold Response.payload
  by_cases hhead : (requestLine request).method = methodHead
  · rw [if_pos hhead] at hcounted
    rw [if_pos (decide_eq_true hhead)]
    exact List.eq_nil_of_length_eq_zero hcounted
  · rw [if_neg hhead] at hcounted
    rw [if_neg (by simpa using hhead)]
    by_cases hget : r.method = methodGet
    · by_cases hfile : r.filePath = []
      · exact deliveredWith_of_no_file hget hfile
      · by_cases hbody : r.body = []
        · rw [hbody] at hcounted ⊢
          exact List.eq_nil_of_length_eq_zero hcounted
        · rw [deliveredWith_of_file hget hbody hfile, hunchanged hfile] at hcounted ⊢
          exact hpiece.eq_of_length hcounted
    · rw [deliveredWith_of_ne_get hget] at hcounted ⊢
      exact (List.eq_nil_of_length_eq_zero hcounted.symm).symm

theorem version_ne_nil {malformed : RequestLine → Response} {thrown : Option Response}
    (hmalformed : ∀ line, (malformed line).version ≠ [])
    (hthrown : ∀ r ∈ thrown, r.version ≠ []) {env : Env} {site : SiteInfo} {request : Bytes}
    {r : Response} (hr : (answerWith malformed thrown env site request).response = some r) :
    r.version ≠ [] := by
  have hhttp : http11 ≠ [] := by decide
  by_cases hempty : request = []
  · rw [hempty, answerWith_nil] at hr
    exact Option.some.inj hr ▸ hhttp
  · by_cases hmal : (requestLine request).Malformed
    · rw [answerWith_malformed malformed thrown env site hempty hmal] at hr
      exact Option.some.inj hr ▸ hmalformed _
    · have hversion : (requestLine request).version ≠ [] := fun hnil => hmal (Or.inr (Or.inr hnil))
      refine forall_response (P := fun r => r.version ≠ []) hhttp (hmalformed _) ?_ ?_ hthrown ?_ ?_
        hr
      · exact fun _ _ _ _ => hversion
      · exact hversion
      · exact hversion
      · exact fun _ => hversion

/-! ## Calls of the handlers -/

/-- A call of one of the handlers, with the results of its system calls. -/
inductive Call
  | http (env : Env) (site : SiteInfo) (recvs : List RecvResult) (writes : List WriteResult)
  | https (env : Env) (site : SiteInfo) (hasEntry : Bool) (results : HttpsUtil.TlsResults)

namespace Call

/-- The request that the handler reads. -/
def request : Call → Bytes
  | http _ _ recvs _ => HttpUtil.received recvs
  | https _ _ _ results => HttpsUtil.received results

def head (call : Call) : Bool := (requestLine call.request).method = methodHead

/-- What it puts on the connection; of TLS the plaintext. -/
def wire : Call → Bytes
  | http env site recvs writes => (HttpUtil.handleHttp env site recvs writes).wire
  | https env site hasEntry results => (HttpsUtil.handleHttps env site hasEntry results).run.wire

/-- The response it decides on. -/
def response : Call → Option Response
  | http env site recvs writes => (HttpUtil.handleHttp env site recvs writes).response
  | https env site hasEntry results =>
      (HttpsUtil.handleHttps env site hasEntry results).run.response

/-- Whether the connection stays open. -/
def returned : Call → Option Bool
  | http env site recvs writes => (HttpUtil.handleHttp env site recvs writes).returned
  | https env site hasEntry results =>
      (HttpsUtil.handleHttps env site hasEntry results).run.returned

/-- The request has been read and keeps the framing, every write succeeds in full, and the file that
is asked for has not changed since it was cached. -/
def Orderly : Call → Prop
  | http env site recvs writes =>
      HttpUtil.Answers recvs ∧ WritesInFull writes ∧
        HttpFraming env site (HttpUtil.received recvs) ∧
        ∀ r ∈ (HttpUtil.answer env site (HttpUtil.received recvs)).response,
          Unchanged env.openFile r
  | https env site hasEntry results =>
      HttpsUtil.Answers hasEntry results ∧ WritesAllInFull results.writes ∧
        HeaderFits env site (HttpsUtil.received results) ∧
        HttpsFraming env site (HttpsUtil.received results) ∧
        ∃ r, (HttpsUtil.answer env site (HttpsUtil.received results)).response = some r ∧
          Unchanged env.openFile r

/-- What an orderly call does. -/
structure Replies (call : Call) (r : Response) : Prop where
  response : call.response = some r
  wire : call.wire = r.header ++ r.payload call.head
  returned : call.returned = some r.keepAlive
  printable : r.Printable
  version : r.version ≠ []

theorem replies_http {env : Env} {site : SiteInfo} {recvs : List RecvResult}
    {writes : List WriteResult} (h : (Call.http env site recvs writes).Orderly) :
    ∃ r, (Call.http env site recvs writes).Replies r := by
  obtain ⟨hanswers, hwrites, hframing, hunchanged⟩ := h
  obtain ⟨r, hr⟩ := HttpUtil.exists_response env site (HttpUtil.received recvs)
  obtain ⟨rest, rfl⟩ := eq_cons_of_writesInFull hwrites
  have hsame := hunchanged r hr
  have hfits : HttpUtil.FileFits env.openFile r := by
    intro hfile file hopen
    rw [hsame hfile] at hopen
    rw [Option.some.inj hopen]
  have hcounted := (counted_http_iff env site (HttpUtil.received recvs)).mpr hframing r hr
  have hrun := HttpUtil.handleHttp_answers env site (.full :: .full :: rest) hanswers hr
  refine ⟨r, ?_, ?_, ?_, printable_http hr, ?_⟩
  · rw [response, hrun]
  · rw [wire, hrun, HttpUtil.wire_sendHttpResponse_full]
    exact congrArg _ (delivered_of_counted hsame (List.take_prefix _ _) hcounted)
  · rw [returned, hrun, HttpUtil.brokenPipe_sendHttpResponse_full hfits]
    rfl
  · refine version_ne_nil (fun _ => (by decide : http11 ≠ [])) ?_ hr
    rintro r ⟨⟩
    exact (by decide : http11 ≠ [])

theorem replies_https {env : Env} {site : SiteInfo} {hasEntry : Bool}
    {results : HttpsUtil.TlsResults} (h : (Call.https env site hasEntry results).Orderly) :
    ∃ r, (Call.https env site hasEntry results).Replies r := by
  obtain ⟨hanswers, hwrites, hheader, hframing, r, hr, hsame⟩ := h
  obtain ⟨rest, hrest, -⟩ := eq_cons_of_writesAllInFull hwrites
  have hbody : r.method = methodGet → r.filePath = [] → r.body.length < 0x80000000 :=
    fun hget hfile => lt_of_le_of_lt (length_body_le_answerWith hr hget hfile) (by decide)
  have hcounted := (counted_https_iff env site (HttpsUtil.received results)).mpr hframing r hr
  have hrun := HttpsUtil.handleHttps_answers env site hanswers
  rw [hr] at hrun
  refine ⟨r, ?_, ?_, ?_, printable_https hr, ?_⟩
  · rw [response, hrun]
  · rw [wire, hrun]
    show (HttpsUtil.sendHttpsResponse env.openFile r results.writes).wire = _
    rw [hrest, HttpsUtil.wire_sendHttpsResponse_full (hheader r hr) hbody]
    exact congrArg _ (delivered_of_counted hsame (List.take_prefix _ _) hcounted)
  · rw [returned, hrun]
    show (HttpsUtil.sendHttpsResponse env.openFile r results.writes).brokenPipe.map _ = _
    rw [hrest, brokenPipe_sendHttpsResponse_full (hheader r hr) hbody]
    rfl
  · exact version_ne_nil (fun _ => (by decide : http11 ≠ [])) (by simp) hr

theorem Orderly.replies {call : Call} (h : call.Orderly) : ∃ r, call.Replies r := by
  cases call with
  | http env site recvs writes => exact replies_http h
  | https env site hasEntry results => exact replies_https h

end Call

/-- **The client gets what the handlers decided on.**  When the calls for the requests on a
connection are orderly, the client reads from the bytes of all of them one reply for each request,
in order and with nothing left: the version, the code, the fields and the body of the response to
that request, and keep-alive exactly if the server leaves the connection open. -/
theorem client_reads_replies {calls : List Call} (h : ∀ call ∈ calls, call.Orderly) :
    ∃ replies, readReplies (calls.map Call.head) (calls.flatMap Call.wire) = some (replies, []) ∧
      List.Forall₂ (fun call reply => ∃ r, call.response = some r ∧ reply = r.reply call.head ∧
        (reply.values (ascii "Connection") = some (ascii "keep-alive") ↔
          call.returned = some true)) calls replies := by
  induction calls with
  | nil => exact ⟨[], rfl, List.Forall₂.nil⟩
  | cons call calls ih =>
      obtain ⟨r, hcall⟩ := (h call List.mem_cons_self).replies
      obtain ⟨replies, hread, hreplies⟩ := ih fun other hother =>
        h other (List.mem_cons_of_mem call hother)
      have hfirst := hcall.printable.readReply hcall.version call.head (calls.flatMap Call.wire)
      refine ⟨r.reply call.head :: replies, ?_, List.Forall₂.cons ⟨r, hcall.response, rfl, ?_⟩
        hreplies⟩
      · rw [List.map_cons, List.flatMap_cons, hcall.wire, readReplies, hfirst, Option.bind_some,
          hread]
        rfl
      · rw [hcall.returned, Option.some_inj]
        exact r.connection_values

theorem getRequest_nonempty : ascii "GET / HTTP/1.1\r\nConnection: keep-alive\r\n\r\n" ≠ [] := by
  decide

theorem getRequest_fits :
    (ascii "GET / HTTP/1.1\r\nConnection: keep-alive\r\n\r\n").length ≤ 4096 := by
  decide

/-- The page is asked for. -/
def getPage : Call :=
  .http pages shop [.data ⟨ascii "GET / HTTP/1.1\r\nConnection: keep-alive\r\n\r\n",
    getRequest_nonempty, getRequest_fits⟩] [.full, .full]

/-- Its header fields alone are asked for. -/
def headPage : Call :=
  .http pages shop [.data ⟨ascii "HEAD / HTTP/1.1\r\n\r\n", by decide, by decide⟩] [.full, .full]

theorem client_reads_replies_page :
    ∃ first second, readReplies [false, true] (getPage.wire ++ headPage.wire) =
        some ([first, second], []) ∧ first.body = ascii "hello" ∧
      first.values (ascii "Connection") = some (ascii "keep-alive") ∧ second.body = [] := by
  have hhello : pages.get (requestedFile shop.rootDir (ascii "/")) =
      .found (ascii "hello") (FileCache.getMimeType (ascii "/srv/index.html")) := by
    decide
  have hget : getPage.Orderly := by
    refine ⟨by decide, ⟨le_rfl, by simp⟩, ?_, by decide +kernel⟩
    refine keepsFraming_get (by decide) (by decide) fun content mime hfound => ?_
    obtain ⟨rfl, -⟩ := CacheAnswer.found.inj (hhello.symm.trans hfound)
    exact ⟨ascii "hello", by decide, le_rfl⟩
  have hhead : headPage.Orderly := by
    refine ⟨by decide, ⟨le_rfl, by simp⟩, Or.inr ?_, by decide +kernel⟩
    dsimp only
    rw [if_neg (by decide), if_neg (by decide), if_pos (by decide)]
    exact fun hthrows => absurd (hhello.symm.trans hthrows) (by simp)
  have hall : ∀ call ∈ [getPage, headPage], call.Orderly :=
    List.forall_mem_cons.mpr ⟨hget, List.forall_mem_singleton.mpr hhead⟩
  obtain ⟨replies, hread, hreplies⟩ := client_reads_replies hall
  cases hreplies with
  | cons hfirst hrest =>
      cases hrest with
      | cons hsecond hnil =>
          cases hnil
          obtain ⟨r, hr, rfl, hkeep⟩ := hfirst
          obtain ⟨r', -, rfl, -⟩ := hsecond
          have hbody : getPage.response.map Response.body = some (ascii "hello") := by
            decide +kernel
          rw [hr] at hbody
          exact ⟨_, _, hread, Option.some.inj hbody, hkeep.mpr (by decide +kernel), rfl⟩

end Serving

end Sok
