import Sok.Handler
import Sok.Socket

/-!
# Protocol detection

`dispatch_protocol` looks at the first 16 bytes in the socket, anew on every
readiness event, and calls one of the two handlers with the site of the port.
-/

namespace Sok

/-! ## Detection -/

/-- The first two bytes are those of a TLS record. -/
def looksTls : Bytes → Bool
  | first :: second :: _ => (first == 0x14 || first == 0x15 || first == 0x16 || first == 0x17) &&
      second == 0x03
  | _ => false

/-- The alternatives of `http_regex`, each anchored at the beginning. -/
def httpWords : List Bytes :=
  [ascii "GET ", ascii "POST ", ascii "HEAD ", ascii "PUT ", ascii "DELETE ", ascii "OPTIONS ",
    ascii "TRACE ", ascii "CONNECT ", ascii "PATCH ", ascii "HTTP/"]

def looksHttp (data : Bytes) : Bool :=
  httpWords.any fun word => word.isPrefixOf data

/-- What the peeked bytes are taken for. -/
inductive Protocol
  | https
  | http
  | unsupported
  deriving DecidableEq, Repr

def detect (data : Bytes) : Protocol :=
  if looksTls data then .https else if looksHttp data then .http else .unsupported

theorem looksTls_take (data : Bytes) : looksTls (data.take 16) = looksTls data := by
  rcases data with _ | ⟨first, _ | ⟨second, rest⟩⟩ <;> rfl

theorem looksHttp_iff {data : Bytes} :
    looksHttp data = true ↔ ∃ word ∈ httpWords, word <+: data := by
  simp [looksHttp, List.any_eq_true]

/-- The words are shorter than the peek. -/
theorem looksHttp_take (data : Bytes) : looksHttp (data.take 16) = looksHttp data := by
  have hshort : ∀ word ∈ httpWords, word.length ≤ 16 := by decide
  rw [Bool.eq_iff_iff, looksHttp_iff, looksHttp_iff]
  refine exists_congr fun word => and_congr_right fun hword => ?_
  rw [List.prefix_take_iff]
  exact and_iff_left (hshort word hword)

theorem detect_take (data : Bytes) : detect (data.take 16) = detect data := by
  rw [detect, detect, looksTls_take, looksHttp_take]

/-! ## dispatch_protocol -/

/-- What the calls of the handlers return. -/
structure Calls where
  recvs : List RecvResult
  writes : List WriteResult
  tls : HttpsUtil.TlsResults

/-- The run of `dispatch_protocol`. -/
inductive DispatchRun
  /-- No handler was called, and false is returned. -/
  | refused
  | http (run : HandlerRun RecvStop)
  | https (run : HttpsUtil.HttpsRun)

namespace DispatchRun

/-- The paths passed to `FileCache::get`. -/
def lookups : DispatchRun → List Bytes
  | refused => []
  | http run => run.lookups
  | https run => run.run.lookups

/-- The plaintext put on the connection. -/
def wire : DispatchRun → Bytes
  | refused => []
  | http run => run.wire
  | https run => run.run.wire

/-- The value returned, or `none` while a handler is still sending. -/
def returned : DispatchRun → Option Bool
  | refused => some false
  | http run => run.returned
  | https run => run.run.returned

/-- The entry of the fd in `ssl_map` behind the call. -/
def entryAfter (entry : Bool) : DispatchRun → Bool
  | https run => run.entry
  | _ => entry

/-- The call has created an SSL object. -/
def creates : DispatchRun → Bool
  | https run => run.created
  | _ => false

/-- The event went to `handle_https`. -/
def isHttps : DispatchRun → Bool
  | https _ => true
  | _ => false

end DispatchRun

/-- `dispatch_protocol` in a process that has loaded `config`; `peeked` is none when
`recv` returned 0 or -1, and `hasEntry` tells whether `ssl_map` has the fd. -/
def dispatchProtocol (config : YamlReader) (port : Port) (env : Env) (peeked : Option Bytes)
    (hasEntry : Bool) (calls : Calls) : DispatchRun :=
  match peeked with
  | none => .refused
  | some data =>
      match detect data with
      | .https =>
          match SiteInfo.ofPort config port with
          | .error _ => .refused
          | .ok site => .https (HttpsUtil.handleHttps env site hasEntry calls.tls)
      | .http =>
          match SiteInfo.ofPort config port with
          | .error _ => .refused
          | .ok site => .http (HttpUtil.handleHttp env site calls.recvs calls.writes)
      | .unsupported => .refused

section

variable {config : YamlReader} {port : Port} {env : Env} {data : Bytes} {hasEntry : Bool}
  {calls : Calls}

theorem dispatchProtocol_https {site : SiteInfo} (hdetect : detect data = .https)
    (hsite : SiteInfo.ofPort config port = .ok site) :
    dispatchProtocol config port env (some data) hasEntry calls =
      .https (HttpsUtil.handleHttps env site hasEntry calls.tls) := by
  simp only [dispatchProtocol, hdetect, hsite]

theorem dispatchProtocol_http {site : SiteInfo} (hdetect : detect data = .http)
    (hsite : SiteInfo.ofPort config port = .ok site) :
    dispatchProtocol config port env (some data) hasEntry calls =
      .http (HttpUtil.handleHttp env site calls.recvs calls.writes) := by
  simp only [dispatchProtocol, hdetect, hsite]

theorem dispatchProtocol_unsupported (hdetect : detect data = .unsupported) :
    dispatchProtocol config port env (some data) hasEntry calls = .refused := by
  simp only [dispatchProtocol, hdetect]

/-- Either no handler is called, or it is called with the site of the port. -/
theorem dispatchProtocol_cases (config : YamlReader) (port : Port) (env : Env)
    (peeked : Option Bytes) (hasEntry : Bool) (calls : Calls) :
    dispatchProtocol config port env peeked hasEntry calls = .refused ∨
      ∃ site, SiteInfo.ofPort config port = .ok site ∧
        (dispatchProtocol config port env peeked hasEntry calls =
            .https (HttpsUtil.handleHttps env site hasEntry calls.tls) ∨
          dispatchProtocol config port env peeked hasEntry calls =
            .http (HttpUtil.handleHttp env site calls.recvs calls.writes)) := by
  cases peeked with
  | none => exact Or.inl rfl
  | some data =>
      cases hsite : SiteInfo.ofPort config port with
      | error message =>
          refine Or.inl ?_
          simp only [dispatchProtocol, hsite]
          split <;> rfl
      | ok site =>
          cases hdetect : detect data with
          | https => exact Or.inr ⟨site, rfl, Or.inl (dispatchProtocol_https hdetect hsite)⟩
          | http => exact Or.inr ⟨site, rfl, Or.inr (dispatchProtocol_http hdetect hsite)⟩
          | unsupported => exact Or.inl (dispatchProtocol_unsupported hdetect)

end

/-! ## The site of a dispatch -/

theorem mem_lookups_answerWith {malformed : RequestLine → Response} {thrown : Option Response}
    {env : Env} {site : SiteInfo} {request file : Bytes}
    (h : file ∈ (answerWith malformed thrown env site request).lookups) :
    file = requestedFile site.rootDir (requestLine request).path := by
  rw [lookups_answerWith] at h
  split at h
  · exact List.mem_singleton.mp h
  · exact absurd h (by simp)

theorem HttpUtil.mem_lookups_handleHttp {env : Env} {site : SiteInfo} {recvs : List RecvResult}
    {writes : List WriteResult} {file : Bytes}
    (h : file ∈ (HttpUtil.handleHttp env site recvs writes).lookups) :
    ∃ path, file = requestedFile site.rootDir path := by
  by_cases hanswers : HttpUtil.Answers recvs
  · obtain ⟨r, hr⟩ := HttpUtil.exists_response env site (HttpUtil.received recvs)
    rw [HttpUtil.handleHttp_answers env site writes hanswers hr] at h
    exact ⟨_, mem_lookups_answerWith h⟩
  · rw [HttpUtil.handleHttp_silent env site writes hanswers] at h
    exact absurd h (by simp)

theorem HttpsUtil.mem_lookups_handleHttps {env : Env} {site : SiteInfo} {hasEntry : Bool}
    {results : TlsResults} {file : Bytes}
    (h : file ∈ (HttpsUtil.handleHttps env site hasEntry results).run.lookups) :
    ∃ path, file = requestedFile site.rootDir path := by
  by_cases hanswers : HttpsUtil.Answers hasEntry results
  · rw [HttpsUtil.handleHttps_answers env site hanswers] at h
    split at h <;> exact ⟨_, mem_lookups_answerWith h⟩
  · obtain ⟨returned, unread, hsilent⟩ := HttpsUtil.handleHttps_silent env site hanswers
    rw [hsilent] at h
    exact absurd h (by simp [HttpsUtil.silent])

/-- Whatever is looked up is named by the site that the port was given. -/
theorem mem_lookups_dispatchProtocol {config : YamlReader} {port : Port} {env : Env}
    {peeked : Option Bytes} {hasEntry : Bool} {calls : Calls} {file : Bytes}
    (h : file ∈ (dispatchProtocol config port env peeked hasEntry calls).lookups) :
    ∃ site path, SiteInfo.ofPort config port = .ok site ∧
      file = requestedFile site.rootDir path := by
  rcases dispatchProtocol_cases config port env peeked hasEntry calls with
    hrun | ⟨site, hsite, hrun | hrun⟩
  · rw [hrun] at h
    exact absurd h (by simp [DispatchRun.lookups])
  · rw [hrun] at h
    obtain ⟨path, hfile⟩ := HttpsUtil.mem_lookups_handleHttps h
    exact ⟨site, path, hsite, hfile⟩
  · rw [hrun] at h
    obtain ⟨path, hfile⟩ := HttpUtil.mem_lookups_handleHttp h
    exact ⟨site, path, hsite, hfile⟩

end Sok
