import Sok.Http.Send

/-!
# Sending a response over TLS

`safe_ssl_write` and `send_https_response`.  It differs from the plain sender in
the length arguments, which OpenSSL takes as `int`, and in the bodies: a static
file is mapped as a whole and sent up to its own length, not up to that of the
cached body, and any other body is one call.
-/

namespace Sok.HttpsUtil

/-- `safe_ssl_write(ssl, buf, size)`: the bytes taken and the value returned. -/
def safeSslWrite (buf : Bytes) (result : SslWriteResult) : Bytes × Bool :=
  match sslWrite (toInt buf.length) result with
  | .ok moved => (buf.take moved, true)
  | .error .want => ([], true)  -- the write would block: reported as success
  | .error .epipe => ([], false)
  | .error .other => ([], false)

/-- `while (total < filesize)` over the mapped file. -/
def mmapLoop (file : Bytes) :
    List SslWriteResult → Transfer.Progress UInt8 SslError SslWriteResult :=
  Transfer.loop file file.length
    (fun total result => sslWrite (toInt (file.length - total)) result) 0

/-- The part of `send_https_response` behind the header block.  A file that
cannot be mapped counts as one that cannot be opened; of an empty file, which
cannot be mapped either, nothing is sent. -/
def sendBody (openFile : Bytes → Option Bytes) (r : Response) (results : List SslWriteResult) :
    Sent :=
  if r.method = methodGet ∧ r.body ≠ [] ∧ r.filePath ≠ [] then
    match openFile r.filePath with
    | none => ⟨[r.filePath], [], some false⟩
    | some file =>
        let sent := mmapLoop file results
        -- WANT returns and any other error breaks out; neither sets `broken_pipe`
        ⟨[r.filePath], sent.out, sent.ended.map fun _ => false⟩
  else if r.method = methodGet ∧ r.body ≠ [] then
    match results with
    | [] => ⟨[], [], none⟩
    | result :: _ =>
        let (body, written) := safeSslWrite r.body result
        ⟨[], body, some !written⟩
  else ⟨[], [], some false⟩

/-- `send_https_response`. -/
def sendHttpsResponse (openFile : Bytes → Option Bytes) (r : Response) :
    List SslWriteResult → Sent
  | [] => ⟨[], [], none⟩
  | result :: results =>
      let (header, written) := safeSslWrite r.header result
      if written then
        let body := sendBody openFile r results
        { body with wire := header ++ body.wire }
      else ⟨[], header, some true⟩

theorem opened_sendHttpsResponse {openFile : Bytes → Option Bytes} {r : Response}
    {results : List SslWriteResult} {file : Bytes}
    (h : file ∈ (sendHttpsResponse openFile r results).opened) :
    file = r.filePath ∧ r.filePath ≠ [] := by
  cases results with
  | nil => simp [sendHttpsResponse] at h
  | cons result results =>
      simp only [sendHttpsResponse] at h
      split at h
      · simp only [sendBody] at h
        split at h
        · rename_i hfile
          split at h <;> exact ⟨List.mem_singleton.mp h, hfile.2.2⟩
        · split at h
          · split at h <;> simp at h
          · simp at h
      · simp at h

theorem bounded_mmap (file : Bytes) :
    Transfer.Bounded file file.length
      (fun total result => sslWrite (toInt (file.length - total)) result) := by
  intro total result moved hlt hfile hmoved
  have hle := sslWrite_le hmoved
  omega

/-! ## When every call takes all it is offered -/

/-- The first call takes what its `int` argument says, and the one after it, if
there is one, is refused: what is left is a multiple of 2^32. -/
theorem total_mmapLoop {file : Bytes} {first : SslWriteResult} (results : List SslWriteResult)
    (hfirst : 0 < toInt file.length →
      sslWrite (toInt (file.length - 0)) first = .ok (toInt file.length).toNat) :
    (mmapLoop file (first :: results)).total = (toInt file.length).toNat := by
  have hle := toInt_le file.length
  unfold mmapLoop
  by_cases hpos : 0 < toInt file.length
  · have hlength : 0 < file.length := by omega
    rw [Transfer.loop_cons_ok hlength (hfirst hpos), Transfer.Progress.after_total, Nat.zero_add]
    by_cases hall : file.length ≤ (toInt file.length).toNat
    · rw [Transfer.loop_of_goal_le hall]
    · cases results with
      | nil => simp [Transfer.loop]
      | cons result results =>
          obtain ⟨error, herror⟩ := sslWrite_refused (toInt_sub_toNat hpos.le).le result
          rw [Transfer.loop_cons_error (not_le.mp hall) herror]
  · have hzero : (toInt file.length).toNat = 0 := by omega
    rw [hzero]
    by_cases hlength : file.length ≤ 0
    · rw [Transfer.loop_of_goal_le hlength]
    · obtain ⟨error, herror⟩ := sslWrite_refused (not_lt.mp hpos) first
      rw [Transfer.loop_cons_error (not_le.mp hlength) herror]

theorem mmapLoop_full (file : Bytes) (results : List SslWriteResult) :
    (mmapLoop file (.full :: results)).out = file.take (toInt file.length).toNat := by
  rw [mmapLoop, Transfer.loop_out_zero (bounded_mmap file), ← mmapLoop,
    total_mmapLoop results fun hpos => sslWrite_full hpos]

theorem safeSslWrite_of_ok {buf : Bytes} {result : SslWriteResult} {moved : ℕ}
    (h : sslWrite (toInt buf.length) result = .ok moved) :
    safeSslWrite buf result = (buf.take moved, true) := by
  simp only [safeSslWrite, h]

theorem safeSslWrite_full {buf : Bytes} (hne : buf ≠ []) (hlt : buf.length < 0x80000000) :
    safeSslWrite buf .full = (buf, true) := by
  have hpos : 0 < toInt buf.length := by
    have hlength := List.length_pos_of_ne_nil hne
    rw [toInt_of_lt hlt]
    omega
  have hall : (toInt buf.length).toNat = buf.length := by
    rw [toInt_of_lt hlt]
    exact Int.toNat_natCast _
  rw [safeSslWrite_of_ok (sslWrite_full hpos), hall, List.take_length]

/-- The bytes that follow the header block when every call takes all it is offered. -/
def delivered (openFile : Bytes → Option Bytes) (r : Response) : Bytes :=
  deliveredWith (fun file => file.take (toInt file.length).toNat) openFile r

theorem sendHttpsResponse_cons {openFile : Bytes → Option Bytes} {r : Response}
    {result : SslWriteResult} (h : safeSslWrite r.header result = (r.header, true))
    (results : List SslWriteResult) :
    sendHttpsResponse openFile r (result :: results) =
      { sendBody openFile r results with
        wire := r.header ++ (sendBody openFile r results).wire } := by
  simp only [sendHttpsResponse, h, if_true]

theorem brokenPipe_sendHttpsResponse_cons {openFile : Bytes → Option Bytes} {r : Response}
    {result : SslWriteResult} (h : safeSslWrite r.header result = (r.header, true))
    (results : List SslWriteResult) :
    (sendHttpsResponse openFile r (result :: results)).brokenPipe =
      (sendBody openFile r results).brokenPipe := by
  simp only [sendHttpsResponse, h, if_true]

theorem wire_sendBody {openFile : Bytes → Option Bytes} {r : Response} {result : SslWriteResult}
    {results : List SslWriteResult}
    (hloop : ∀ file, (mmapLoop file (result :: results)).out = file.take (toInt file.length).toNat)
    (hbody : r.method = methodGet → r.filePath = [] → r.body ≠ [] →
      safeSslWrite r.body result = (r.body, true)) :
    (sendBody openFile r (result :: results)).wire = delivered openFile r := by
  unfold sendBody delivered deliveredWith
  by_cases hfile : r.method = methodGet ∧ r.body ≠ [] ∧ r.filePath ≠ []
  · simp only [if_pos hfile]
    cases hopen : openFile r.filePath with
    | none => rfl
    | some file => exact hloop file
  · simp only [if_neg hfile]
    by_cases hget : r.method = methodGet
    · by_cases hempty : r.body = []
      · simp [hget, hempty]
      · have hpath : r.filePath = [] := by
          by_contra hpath
          exact hfile ⟨hget, hempty, hpath⟩
        simp only [hget, hempty, ne_eq, not_false_eq_true, and_self, if_true,
          hbody hget hpath hempty]
    · simp only [hget, false_and, if_false]

/-- The body part returns when its loop ends, and does not report a broken pipe
when its one call is not refused. -/
theorem brokenPipe_sendBody {openFile : Bytes → Option Bytes} {r : Response}
    {result : SslWriteResult} {results : List SslWriteResult}
    (hloop : ∀ file, ∃ ended, (mmapLoop file (result :: results)).ended = some ended)
    (hbody : r.method = methodGet → r.filePath = [] → r.body ≠ [] →
      safeSslWrite r.body result = (r.body, true)) :
    (sendBody openFile r (result :: results)).brokenPipe = some false := by
  unfold sendBody
  by_cases hfile : r.method = methodGet ∧ r.body ≠ [] ∧ r.filePath ≠ []
  · simp only [if_pos hfile]
    cases hopen : openFile r.filePath with
    | none => rfl
    | some file =>
        obtain ⟨ended, hended⟩ := hloop file
        simp only [hended, Option.map_some]
  · simp only [if_neg hfile]
    by_cases hget : r.method = methodGet ∧ r.body ≠ []
    · have hpath : r.filePath = [] := by
        by_contra hpath
        exact hfile ⟨hget.1, hget.2, hpath⟩
      simp only [if_pos hget, hbody hget.1 hpath hget.2, Bool.not_true]
    · simp only [if_neg hget]

theorem wire_sendHttpsResponse_full {openFile : Bytes → Option Bytes} {r : Response}
    (hheader : r.header.length < 0x80000000)
    (hbody : r.method = methodGet → r.filePath = [] → r.body.length < 0x80000000)
    (results : List SslWriteResult) :
    (sendHttpsResponse openFile r (.full :: .full :: results)).wire =
      r.header ++ delivered openFile r := by
  have hne : r.header ≠ [] := by simp [Response.header, crlf]
  rw [sendHttpsResponse_cons (safeSslWrite_full hne hheader),
    wire_sendBody (fun file => mmapLoop_full file results)
      fun hget hpath hempty => safeSslWrite_full hempty (hbody hget hpath)]

end Sok.HttpsUtil
