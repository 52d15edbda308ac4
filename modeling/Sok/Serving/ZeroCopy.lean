import Sok.Serving.Framing

/-!
# The zero-copy path

The header block of a static file is computed from the cached body, but its bytes
are taken from a second open of the file.  On a connection whose writes never
fail this module says what comes out: the cached body exactly when the file, as
it is then, still begins with it (over TLS: is it).
-/

namespace Sok

/-! ## Writes that never fail -/

/-- The call succeeds: it takes at least one byte, if it is offered any. -/
def CallResult.Succeeds {ε : Type} : CallResult ε → Prop
  | .full => True
  | .short n => 0 < n
  | .fail _ => False

/-- The first results of a stream. -/
def firstResults {ε : Type} (stream : ℕ → CallResult ε) (calls : ℕ) : List (CallResult ε) :=
  (List.range calls).map stream

@[simp] theorem length_firstResults {ε : Type} (stream : ℕ → CallResult ε) (calls : ℕ) :
    (firstResults stream calls).length = calls := by
  simp [firstResults]

theorem firstResults_succ {ε : Type} (stream : ℕ → CallResult ε) (calls : ℕ) :
    firstResults stream (calls + 1) =
      stream 0 :: firstResults (fun call => stream (call + 1)) calls := by
  simp [firstResults, List.range_succ_eq_map, Function.comp_def]

theorem succeeds_of_mem_firstResults {ε : Type} {stream : ℕ → CallResult ε}
    (h : ∀ call, (stream call).Succeeds) {calls : ℕ} {result : CallResult ε}
    (hmem : result ∈ firstResults stream calls) : result.Succeeds := by
  obtain ⟨call, -, rfl⟩ := List.mem_map.mp hmem
  exact h call

/-- A successful `write` takes something of what it is offered. -/
theorem write_of_succeeds {count : ℕ} {result : WriteResult} (h : result.Succeeds)
    (hcount : 0 < count) : ∃ moved, 0 < moved ∧ moved ≤ count ∧ write count result = .ok moved := by
  cases result with
  | full => exact ⟨count, hcount, le_rfl, rfl⟩
  | short n => exact ⟨min n count, lt_min h hcount, min_le_right n count, rfl⟩
  | fail error => exact h.elim

theorem write_zero {result : WriteResult} {moved : ℕ} (h : write 0 result = .ok moved) :
    moved = 0 :=
  Nat.le_zero.mp (write_le h)

theorem sslWrite_of_succeeds {num : ℤ} {result : SslWriteResult} (h : result.Succeeds)
    (hnum : 0 < num) :
    ∃ moved, 0 < moved ∧ moved ≤ num.toNat ∧ sslWrite num result = .ok moved := by
  cases result with
  | full => exact ⟨num.toNat, by omega, le_rfl, if_pos hnum⟩
  | short n =>
      have hpos : 0 < n := h
      refine ⟨min n num.toNat, lt_min hpos (by omega), min_le_right _ _, ?_⟩
      exact if_pos ⟨hnum, hpos⟩
  | fail error => exact h.elim

theorem toInt_sub {n total : ℕ} (h : 0 ≤ toInt n) (htotal : total ≤ (toInt n).toNat) :
    toInt (n - total) = toInt n - total := by
  have hmod := toNat_toInt h
  have hlt : toInt n < 0x80000000 := by
    have hdef := Int.bmod_def n 0x100000000
    unfold toInt at h ⊢
    split at hdef <;> omega
  have hdef := Int.bmod_def (n - total : ℕ) 0x100000000
  unfold toInt at h hlt hmod htotal ⊢
  split at hdef <;> omega

/-! ## What the loops send -/

namespace HttpUtil

theorem sendfileLoop_succeeds {file : Bytes} {size : ℕ} {results : List WriteResult}
    (h : ∀ result ∈ results, result.Succeeds) (henough : min size file.length ≤ results.length) :
    (sendfileLoop file size results).out = file.take size := by
  have htotal : (sendfileLoop file size results).total = min size file.length := by
    unfold sendfileLoop
    refine Transfer.loop_total_of_limit (min_le_left _ _) ?_ ?_ (Nat.zero_le _) (by omega)
    · intro total result hlt hmem
      have hleft : 0 < min (size - total) (file.length - total) := by omega
      obtain ⟨moved, hpos, hle, hwrite⟩ := write_of_succeeds (h result hmem) hleft
      exact ⟨moved, hpos, by omega, hwrite⟩
    · intro hlt result hmem moved hsend
      unfold sendfile at hsend
      have hnothing :
          min (size - min size file.length) (file.length - min size file.length) = 0 := by
        omega
      rw [hnothing] at hsend
      exact write_zero hsend
  unfold sendfileLoop at htotal ⊢
  rw [Transfer.loop_out_zero (bounded_sendfile file size), htotal, ← List.take_eq_take_min]

theorem writeLoop_succeeds {body : Bytes} {results : List WriteResult}
    (h : ∀ result ∈ results, result.Succeeds) (henough : body.length ≤ results.length) :
    (writeLoop body results).out = body := by
  have htotal : (writeLoop body results).total = body.length := by
    unfold writeLoop
    refine Transfer.loop_total_of_limit le_rfl ?_ (fun hlt => absurd hlt (lt_irrefl _))
      (Nat.zero_le _) (by omega)
    intro total result hlt hmem
    obtain ⟨moved, hpos, hle, hwrite⟩ := write_of_succeeds (h result hmem)
      (show 0 < body.length - total by omega)
    exact ⟨moved, hpos, by omega, hwrite⟩
  unfold writeLoop at htotal ⊢
  rw [Transfer.loop_out_zero (bounded_write body), htotal, List.take_length]

end HttpUtil

namespace HttpsUtil

theorem mmapLoop_succeeds {file : Bytes} {results : List SslWriteResult}
    (h : ∀ result ∈ results, result.Succeeds) (henough : file.length ≤ results.length) :
    (mmapLoop file results).out = file.take (toInt file.length).toNat := by
  have hle := toInt_le file.length
  have htotal : (mmapLoop file results).total = (toInt file.length).toNat := by
    unfold mmapLoop
    refine Transfer.loop_total_of_limit (by omega) ?_ ?_ (Nat.zero_le _) (by omega)
    · intro total result hlt hmem
      have hleft := @toInt_sub file.length total (by omega) (by omega)
      obtain ⟨moved, hpos, hmoved, hwrite⟩ := sslWrite_of_succeeds (h result hmem)
        (show 0 < toInt (file.length - total) by omega)
      exact ⟨moved, hpos, by omega, hwrite⟩
    · -- the length left is a multiple of 2^32, or was negative from the start
      intro hlt result hmem moved hwrite
      have hrefused : toInt (file.length - (toInt file.length).toNat) ≤ 0 := by
        rcases le_or_gt 0 (toInt file.length) with hpos | hneg
        · exact (toInt_sub_toNat hpos).le
        · rw [Int.toNat_of_nonpos hneg.le]
          exact hneg.le
      obtain ⟨error, herror⟩ := sslWrite_refused hrefused result
      rw [hwrite] at herror
      exact absurd herror (by simp)
  unfold mmapLoop at htotal ⊢
  rw [Transfer.loop_out_zero (bounded_mmap file), htotal]

end HttpsUtil

/-! ## What the handlers send -/

namespace Serving

/-- With writes that never fail, the connection ends up with what the first write
took of the header block, and then the body. -/
def SendsBody {ε ε' : Type} (run : List (CallResult ε) → HandlerRun ε')
    (header : CallResult ε → Bytes) (body : Bytes) : Prop :=
  ∀ stream : ℕ → CallResult ε, (∀ call, (stream call).Succeeds) →
    ∃ enough, ∀ calls ≥ enough,
      (run (firstResults stream calls)).wire = header (stream 0) ++ body

/-- A handler that sends one body sends no other. -/
theorem sendsBody_iff {ε ε' : Type} {run : List (CallResult ε) → HandlerRun ε'}
    {header : CallResult ε → Bytes} {sent body : Bytes} (h : SendsBody run header sent) :
    SendsBody run header body ↔ sent = body := by
  constructor
  · intro hbody
    have hfull : ∀ call : ℕ, (CallResult.full : CallResult ε).Succeeds := fun _ => trivial
    obtain ⟨enough, hsent⟩ := h (fun _ => .full) hfull
    obtain ⟨enough', hbody⟩ := hbody (fun _ => .full) hfull
    have hboth := (hsent (max enough enough') (le_max_left _ _)).symm.trans
      (hbody (max enough enough') (le_max_right _ _))
    exact List.append_cancel_left hboth
  · rintro rfl
    exact h

/-- The response to a GET that the cache answers with `body`. -/
def staticResponse (site : SiteInfo) (request mime body : Bytes) : Response :=
  .file (requestLine request).version mime body (requestLine request).keepAlive
    (requestLine request).method (requestedFile site.rootDir (requestLine request).path)

section

variable {env : Env} {site : SiteInfo} {request mime body : Bytes}

theorem answer_static {malformed : RequestLine → Response} {thrown : Option Response}
    (hnames : NamesFile request)
    (hfound : env.get (requestedFile site.rootDir (requestLine request).path) =
      .found body mime) :
    (answerWith malformed thrown env site request).response =
      some (staticResponse site request mime body) := by
  rw [answerWith_file malformed thrown env site hnames, hfound]
  rfl

/-- Of a static file, the piece of the opened file is delivered. -/
theorem delivered_static (piece : Bytes → Bytes) (openFile : Bytes → Option Bytes)
    (hnames : NamesFile request) (hget : (requestLine request).method = methodGet)
    (hbody : body ≠ []) :
    deliveredWith piece openFile (staticResponse site request mime body) =
      match openFile (requestedFile site.rootDir (requestLine request).path) with
      | none => []
      | some file => piece file := by
  have hpath : requestedFile site.rootDir (requestLine request).path ≠ [] :=
    hnames.requestedFile_ne_nil _
  exact deliveredWith_of_file (r := staticResponse site request mime body) hget hbody hpath

/-- What is delivered is the body exactly when the opened file gives it. -/
theorem delivered_static_iff (piece : Bytes → Bytes) (openFile : Bytes → Option Bytes)
    (hnames : NamesFile request) (hget : (requestLine request).method = methodGet)
    (hbody : body ≠ []) :
    deliveredWith piece openFile (staticResponse site request mime body) = body ↔
      ∃ file ∈ openFile (requestedFile site.rootDir (requestLine request).path),
        piece file = body := by
  rw [delivered_static piece openFile hnames hget hbody]
  cases openFile (requestedFile site.rootDir (requestLine request).path) with
  | none => simpa using hbody.symm
  | some file => simp

/-- The part behind the header block, for a response without a file: the ordinary
branch writes the body it was given. -/
theorem sendBody_ordinary (openFile : Bytes → Option Bytes) {r : Response}
    (hget : r.method = methodGet) (hbody : r.body ≠ []) (hfile : r.filePath = [])
    {results : List WriteResult} (h : ∀ result ∈ results, result.Succeeds)
    (henough : r.body.length ≤ results.length) :
    (HttpUtil.sendBody openFile r results).wire = r.body := by
  unfold HttpUtil.sendBody
  rw [if_neg fun hall => hall.2.2 hfile, if_pos ⟨hget, hbody⟩]
  exact HttpUtil.writeLoop_succeeds h henough

theorem sendBody_file (openFile : Bytes → Option Bytes) {r : Response}
    (hget : r.method = methodGet) (hbody : r.body ≠ []) (hfile : r.filePath ≠ [])
    {results : List WriteResult} (h : ∀ result ∈ results, result.Succeeds)
    (henough : r.body.length ≤ results.length) :
    (HttpUtil.sendBody openFile r results).wire = HttpUtil.delivered openFile r := by
  unfold HttpUtil.sendBody HttpUtil.delivered
  rw [if_pos ⟨hget, hbody, hfile⟩, deliveredWith_of_file hget hbody hfile]
  cases openFile r.filePath with
  | none => rfl
  | some file => exact HttpUtil.sendfileLoop_succeeds h ((min_le_left _ _).trans henough)

theorem sendBody_file_tls (openFile : Bytes → Option Bytes) {r : Response}
    (hget : r.method = methodGet) (hbody : r.body ≠ []) (hfile : r.filePath ≠ [])
    {results : List SslWriteResult} (h : ∀ result ∈ results, result.Succeeds)
    (henough : ∀ file ∈ openFile r.filePath, file.length ≤ results.length) :
    (HttpsUtil.sendBody openFile r results).wire = HttpsUtil.delivered openFile r := by
  unfold HttpsUtil.sendBody HttpsUtil.delivered
  rw [if_pos ⟨hget, hbody, hfile⟩, deliveredWith_of_file hget hbody hfile]
  cases hopen : openFile r.filePath with
  | none => rfl
  | some file => exact HttpsUtil.mmapLoop_succeeds h (henough file hopen)

/-- A header block that is written without a failure is followed by the body part. -/
theorem wire_sendHttpResponse_succeeds (openFile : Bytes → Option Bytes) (r : Response)
    {result : WriteResult} (h : result.Succeeds) (results : List WriteResult) :
    (HttpUtil.sendHttpResponse openFile r (result :: results)).wire =
      (HttpUtil.safeWrite r.header result).1 ++
        (HttpUtil.sendBody openFile r results).wire := by
  unfold HttpUtil.sendHttpResponse HttpUtil.safeWrite
  cases result with
  | full => rfl
  | short n => rfl
  | fail error => exact h.elim

theorem wire_sendHttpsResponse_succeeds (openFile : Bytes → Option Bytes) (r : Response)
    (hheader : r.header.length < 0x80000000) {result : SslWriteResult} (h : result.Succeeds)
    (results : List SslWriteResult) :
    (HttpsUtil.sendHttpsResponse openFile r (result :: results)).wire =
      (HttpsUtil.safeSslWrite r.header result).1 ++
        (HttpsUtil.sendBody openFile r results).wire := by
  have hlength : 0 < r.header.length := by
    rw [List.length_pos_iff]
    simp [Response.header, crlf]
  have hpos : 0 < toInt r.header.length := by
    rw [toInt_of_lt hheader]
    exact_mod_cast hlength
  obtain ⟨moved, -, -, hwrite⟩ := sslWrite_of_succeeds h hpos
  have hsafe := HttpsUtil.safeSslWrite_of_ok hwrite
  simp only [HttpsUtil.sendHttpsResponse, hsafe, if_true]

theorem handleHttp_sendsBody {recvs : List RecvResult} (hanswers : HttpUtil.Answers recvs)
    {r : Response} (hr : (HttpUtil.answer env site (HttpUtil.received recvs)).response = some r)
    (hget : r.method = methodGet) (hbody : r.body ≠ []) (hfile : r.filePath ≠ []) :
    SendsBody (HttpUtil.handleHttp env site recvs)
      (fun result => (HttpUtil.safeWrite r.header result).1)
      (HttpUtil.delivered env.openFile r) := by
  intro stream hstream
  refine ⟨r.body.length + 1, fun calls hcalls => ?_⟩
  obtain ⟨calls, rfl⟩ := Nat.exists_eq_succ_of_ne_zero (show calls ≠ 0 by omega)
  rw [HttpUtil.handleHttp_answers env site _ hanswers hr, firstResults_succ]
  dsimp only
  rw [wire_sendHttpResponse_succeeds _ _ (hstream 0)]
  congr 1
  refine sendBody_file _ hget hbody hfile ?_ ?_
  · intro result hmem
    exact succeeds_of_mem_firstResults (fun call => hstream (call + 1)) hmem
  · rw [length_firstResults]
    omega

theorem handleHttps_sendsBody {hasEntry : Bool} {results : HttpsUtil.TlsResults}
    (hanswers : HttpsUtil.Answers hasEntry results) {r : Response}
    (hr : (HttpsUtil.answer env site (HttpsUtil.received results)).response = some r)
    (hheader : r.header.length < 0x80000000) (hget : r.method = methodGet) (hbody : r.body ≠ [])
    (hfile : r.filePath ≠ []) :
    SendsBody
      (fun writes => (HttpsUtil.handleHttps env site hasEntry { results with writes := writes }).run)
      (fun result => (HttpsUtil.safeSslWrite r.header result).1)
      (HttpsUtil.delivered env.openFile r) := by
  intro stream hstream
  refine ⟨((env.openFile r.filePath).elim 0 List.length) + 1, fun calls hcalls => ?_⟩
  obtain ⟨calls, rfl⟩ := Nat.exists_eq_succ_of_ne_zero (show calls ≠ 0 by omega)
  have hrun := @HttpsUtil.handleHttps_answers env site hasEntry
    { results with writes := firstResults stream (calls + 1) } hanswers
  have hr' : (HttpsUtil.answer env site (HttpsUtil.received
      { results with writes := firstResults stream (calls + 1) })).response = some r := hr
  rw [hr'] at hrun
  dsimp only at hrun ⊢
  rw [hrun, firstResults_succ]
  dsimp only
  rw [wire_sendHttpsResponse_succeeds _ _ hheader (hstream 0)]
  congr 1
  refine sendBody_file_tls _ hget hbody hfile ?_ ?_
  · intro result hmem
    exact succeeds_of_mem_firstResults (fun call => hstream (call + 1)) hmem
  · intro file hopen
    rw [hopen, Option.elim_some] at hcalls
    rw [length_firstResults]
    omega

end

/-- `handle_http` sends the cached body exactly when the opened file begins with it. -/
theorem handleHttp_static_iff (env : Env) (site : SiteInfo) {recvs : List RecvResult}
    (hanswers : HttpUtil.Answers recvs) {body mime : Bytes}
    (hnames : NamesFile (HttpUtil.received recvs))
    (hget : (requestLine (HttpUtil.received recvs)).method = methodGet)
    (hfound : env.get (requestedFile site.rootDir (requestLine (HttpUtil.received recvs)).path) =
      .found body mime) :
    SendsBody (HttpUtil.handleHttp env site recvs)
        (fun result => (HttpUtil.safeWrite
          (staticResponse site (HttpUtil.received recvs) mime body).header result).1) body ↔
      ∃ file ∈ env.openFile
          (requestedFile site.rootDir (requestLine (HttpUtil.received recvs)).path),
        body <+: file := by
  have hbody : body ≠ [] := env.get_nonempty _ _ _ hfound
  have hpath : requestedFile site.rootDir (requestLine (HttpUtil.received recvs)).path ≠ [] :=
    hnames.requestedFile_ne_nil _
  have hsends := handleHttp_sendsBody hanswers (answer_static hnames hfound) hget hbody hpath
  rw [sendsBody_iff hsends, HttpUtil.delivered, delivered_static_iff _ _ hnames hget hbody]
  refine exists_congr fun file => and_congr_right fun _ => ?_
  exact (List.prefix_iff_eq_take.trans eq_comm).symm

/-- `handle_https` sends the cached body exactly when the opened file is the body,
as far as its length as an `int` goes. -/
theorem handleHttps_static_iff (env : Env) (site : SiteInfo) {hasEntry : Bool}
    {results : HttpsUtil.TlsResults} (hanswers : HttpsUtil.Answers hasEntry results)
    {body mime : Bytes} (hnames : NamesFile (HttpsUtil.received results))
    (hget : (requestLine (HttpsUtil.received results)).method = methodGet)
    (hfound : env.get
      (requestedFile site.rootDir (requestLine (HttpsUtil.received results)).path) =
        .found body mime)
    (hheader : (staticResponse site (HttpsUtil.received results) mime body).header.length <
      0x80000000) :
    SendsBody
        (fun writes =>
          (HttpsUtil.handleHttps env site hasEntry { results with writes := writes }).run)
        (fun result => (HttpsUtil.safeSslWrite
          (staticResponse site (HttpsUtil.received results) mime body).header result).1) body ↔
      ∃ file ∈ env.openFile
          (requestedFile site.rootDir (requestLine (HttpsUtil.received results)).path),
        file.take (toInt file.length).toNat = body := by
  have hbody : body ≠ [] := env.get_nonempty _ _ _ hfound
  have hpath : requestedFile site.rootDir (requestLine (HttpsUtil.received results)).path ≠ [] :=
    hnames.requestedFile_ne_nil _
  have hsends := handleHttps_sendsBody hanswers (answer_static hnames hfound) hheader hget hbody
    hpath
  rw [sendsBody_iff hsends, HttpsUtil.delivered, delivered_static_iff _ _ hnames hget hbody]

/-- **Zero copy.**  With writes that never fail, the bytes behind the header block of
a static file are the cached body exactly when the file, as it is opened again,
begins with the body; over TLS, when the part of the file up to its length as an
`int` is the body. -/
theorem zero_copy_iff (env : Env) (site : SiteInfo) {request body mime : Bytes}
    (hnames : NamesFile request) (hget : (requestLine request).method = methodGet)
    (hfound : env.get (requestedFile site.rootDir (requestLine request).path) =
      .found body mime) :
    (∀ recvs, HttpUtil.Answers recvs → HttpUtil.received recvs = request →
      (SendsBody (HttpUtil.handleHttp env site recvs)
          (fun result =>
            (HttpUtil.safeWrite (staticResponse site request mime body).header result).1) body ↔
        ∃ file ∈ env.openFile (requestedFile site.rootDir (requestLine request).path),
          body <+: file)) ∧
    (∀ hasEntry results, HttpsUtil.Answers hasEntry results →
      HttpsUtil.received results = request →
      (staticResponse site request mime body).header.length < 0x80000000 →
      (SendsBody
          (fun writes =>
            (HttpsUtil.handleHttps env site hasEntry { results with writes := writes }).run)
          (fun result =>
            (HttpsUtil.safeSslWrite (staticResponse site request mime body).header result).1)
          body ↔
        ∃ file ∈ env.openFile (requestedFile site.rootDir (requestLine request).path),
          file.take (toInt file.length).toNat = body)) := by
  constructor
  · rintro recvs hanswers rfl
    exact handleHttp_static_iff env site hanswers hnames hget hfound
  · rintro hasEntry results hanswers rfl hheader
    exact handleHttps_static_iff env site hanswers hnames hget hfound hheader

/-- The pages as they are cached, over the files as they are now. -/
def cachedPages (openFile : Bytes → Option Bytes) : Env :=
  { pages with openFile := openFile }

/-- The index page, asked for with GET. -/
def indexRequest : Bytes := ascii "GET / HTTP/1.1\r\n\r\n"

def indexRecvs : List RecvResult := [.data ⟨indexRequest, by decide, by decide⟩]

/-- A page that has grown since it was cached is sent as it was cached. -/
theorem zero_copy_grown_page :
    SendsBody (HttpUtil.handleHttp (cachedPages fun _ => some (ascii "hello, world")) shop
        indexRecvs)
      (fun result => (HttpUtil.safeWrite (staticResponse shop indexRequest
        (ascii "text/html; charset=utf-8") (ascii "hello")).header result).1)
      (ascii "hello") :=
  ((zero_copy_iff (cachedPages fun _ => some (ascii "hello, world")) shop (by decide) (by decide)
    (by decide)).1 indexRecvs (by decide) (by decide)).mpr
    ⟨ascii "hello, world", rfl, by decide⟩

/-- A page that was deleted after it was cached is announced with its length, and
nothing follows. -/
theorem deleted_page_announced :
    ¬ SendsBody (HttpUtil.handleHttp (cachedPages fun _ => none) shop indexRecvs)
      (fun result => (HttpUtil.safeWrite (staticResponse shop indexRequest
        (ascii "text/html; charset=utf-8") (ascii "hello")).header result).1)
      (ascii "hello") := by
  intro hsends
  obtain ⟨file, hopen, -⟩ := (handleHttp_static_iff (cachedPages fun _ => none) shop
    (by decide) (by decide) (by decide) (by decide)).mp hsends
  exact absurd hopen (by simp [cachedPages])

end Serving

end Sok
