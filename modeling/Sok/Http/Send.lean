import Sok.Http.Response
import Sok.Syscall

/-!
# Sending a response over a plain socket

`safe_write` and `send_http_response`.  The header block is one write.  The body
of a static file is sent with `sendfile` from a second open of the file, any
other body with `write`, and both only for the method `GET`.
-/

namespace Sok

/-- What a send function has done. -/
structure Sent where
  /-- The files it opened. -/
  opened : List Bytes
  /-- The bytes it put on the connection. -/
  wire : Bytes
  /-- The value of `broken_pipe` it returns with, or `none` while it is still sending. -/
  brokenPipe : Option Bool

/-- The body bytes of a response that is sent without a refusal; `piece` is the
part of an opened file that is sent. -/
def deliveredWith (piece : Bytes → Bytes) (openFile : Bytes → Option Bytes) (r : Response) :
    Bytes :=
  if r.method = methodGet ∧ r.body ≠ [] ∧ r.filePath ≠ [] then
    match openFile r.filePath with
    | none => []
    | some file => piece file
  else if r.method = methodGet then r.body
  else []

theorem deliveredWith_of_ne_get {piece : Bytes → Bytes} {openFile : Bytes → Option Bytes}
    {r : Response} (h : r.method ≠ methodGet) : deliveredWith piece openFile r = [] := by
  simp [deliveredWith, h]

theorem deliveredWith_of_no_file {piece : Bytes → Bytes} {openFile : Bytes → Option Bytes}
    {r : Response} (hget : r.method = methodGet) (hfile : r.filePath = []) :
    deliveredWith piece openFile r = r.body := by
  simp [deliveredWith, hget, hfile]

theorem deliveredWith_of_file {piece : Bytes → Bytes} {openFile : Bytes → Option Bytes}
    {r : Response} (hget : r.method = methodGet) (hbody : r.body ≠ []) (hfile : r.filePath ≠ []) :
    deliveredWith piece openFile r =
      match openFile r.filePath with
      | none => []
      | some file => piece file :=
  if_pos ⟨hget, hbody, hfile⟩

namespace HttpUtil

/-- `safe_write`: the bytes taken and the value returned. -/
def safeWrite (buf : Bytes) (result : WriteResult) : Bytes × Bool :=
  match write buf.length result with
  | .ok moved => (buf.take moved, true)
  | .error .again => ([], true)  -- the socket buffer is full: reported as success
  | .error .epipe => ([], false)
  | .error .other => ([], false)

/-- `while (remain > 0)` with `sendfile`; `offset` counts up and `remain` is
`size - offset`. -/
def sendfileLoop (file : Bytes) (size : ℕ) :
    List WriteResult → Transfer.Progress UInt8 Errno WriteResult :=
  Transfer.loop file size
    (fun offset result => sendfile (file.length - offset) (size - offset) result) 0

/-- `while (total < body.size())` with `write`. -/
def writeLoop (body : Bytes) : List WriteResult → Transfer.Progress UInt8 Errno WriteResult :=
  Transfer.loop body body.length (fun total result => write (body.length - total) result) 0

/-- The part of `send_http_response` behind the header block. -/
def sendBody (openFile : Bytes → Option Bytes) (r : Response) (results : List WriteResult) :
    Sent :=
  if r.method = methodGet ∧ r.body ≠ [] ∧ r.filePath ≠ [] then
    match openFile r.filePath with
    | none => ⟨[r.filePath], [], some false⟩
    | some file =>
        let sent := sendfileLoop file r.body.length results
        -- EAGAIN returns and any other error breaks out; neither sets `broken_pipe`
        ⟨[r.filePath], sent.out, sent.ended.map fun _ => false⟩
  else if r.method = methodGet ∧ r.body ≠ [] then
    let sent := writeLoop r.body results
    ⟨[], sent.out, sent.ended.map fun (error, _) => error == some .epipe⟩
  else ⟨[], [], some false⟩

/-- `send_http_response`. -/
def sendHttpResponse (openFile : Bytes → Option Bytes) (r : Response) :
    List WriteResult → Sent
  | [] => ⟨[], [], none⟩
  | result :: results =>
      let (header, written) := safeWrite r.header result
      if written then
        let body := sendBody openFile r results
        { body with wire := header ++ body.wire }
      else ⟨[], header, some true⟩

theorem opened_sendHttpResponse {openFile : Bytes → Option Bytes} {r : Response}
    {results : List WriteResult} {file : Bytes}
    (h : file ∈ (sendHttpResponse openFile r results).opened) :
    file = r.filePath ∧ r.filePath ≠ [] := by
  cases results with
  | nil => simp [sendHttpResponse] at h
  | cons result results =>
      simp only [sendHttpResponse] at h
      split at h
      · simp only [sendBody] at h
        split at h
        · rename_i hfile
          split at h <;> exact ⟨List.mem_singleton.mp h, hfile.2.2⟩
        · split at h <;> simp at h
      · simp at h

theorem bounded_sendfile (file : Bytes) (size : ℕ) :
    Transfer.Bounded file size
      (fun offset result => sendfile (file.length - offset) (size - offset) result) := by
  intro offset result moved hlt hfile hmoved
  have hle := write_le hmoved
  omega

theorem bounded_write (body : Bytes) :
    Transfer.Bounded body body.length
      (fun total result => write (body.length - total) result) := by
  intro total result moved hlt hbody hmoved
  have hle := write_le hmoved
  omega

/-! ## When every call takes all it is offered -/

theorem sendfileLoop_full (file : Bytes) (size : ℕ) (results : List WriteResult) :
    (sendfileLoop file size (.full :: results)).out = file.take size := by
  have hbound := Transfer.loop_total_le (bounded_sendfile file size) (Nat.zero_le _)
    (Nat.zero_le _) (.full :: results)
  have hfirst : min size file.length ≤ (sendfileLoop file size (.full :: results)).total := by
    unfold sendfileLoop Transfer.loop
    split
    · omega
    · simp only [sendfile, write, Transfer.Progress.after_total]
      refine le_trans ?_ (Transfer.le_loop_total _ _)
      omega
  rw [sendfileLoop, Transfer.loop_out_zero (bounded_sendfile file size), ← sendfileLoop]
  rw [← sendfileLoop] at hbound
  obtain hsize | hlength : (sendfileLoop file size (.full :: results)).total = size ∨
      (sendfileLoop file size (.full :: results)).total = file.length ∧ file.length ≤ size := by
    omega
  · rw [hsize]
  · rw [hlength.1, List.take_length, List.take_of_length_le hlength.2]

/-- `sendfile` at the end of the file would be called for ever, so the loop ends
only for a file that has not become shorter. -/
theorem ended_sendfileLoop_full {file : Bytes} {size : ℕ} (hsize : size ≤ file.length)
    (results : List WriteResult) :
    ∃ rest, (sendfileLoop file size (.full :: results)).ended = some (none, rest) := by
  by_cases hzero : size ≤ 0
  · exact ⟨_, by rw [sendfileLoop, Transfer.loop_of_goal_le hzero]⟩
  · refine ⟨results, ?_⟩
    have hmoved : size ≤ 0 + min (size - 0) (file.length - 0) := by omega
    simp only [sendfileLoop, Transfer.loop, hzero, if_false, sendfile, write,
      Transfer.loop_of_goal_le hmoved, Transfer.Progress.after_ended]

theorem writeLoop_full (body : Bytes) (results : List WriteResult) :
    (writeLoop body (.full :: results)).out = body ∧
      ∃ rest, (writeLoop body (.full :: results)).ended = some (none, rest) := by
  by_cases hnil : body = []
  · subst hnil
    exact ⟨by simp [writeLoop, Transfer.loop], .full :: results, by simp [writeLoop, Transfer.loop]⟩
  · have hpos : ¬ body.length ≤ 0 := by
      simpa using hnil
    have hmoved : body.length ≤ 0 + (body.length - 0) := by omega
    have hloop : writeLoop body (.full :: results) = ⟨body, body.length, some (none, results)⟩ := by
      simp [writeLoop, Transfer.loop, hpos, write, Transfer.Progress.after,
        Transfer.loop_of_goal_le]
    exact ⟨by rw [hloop], results, by rw [hloop]⟩

/-- The bytes that follow the header block when every call takes all it is
offered: of a static file, what is in the file now. -/
def delivered (openFile : Bytes → Option Bytes) (r : Response) : Bytes :=
  deliveredWith (fun file => file.take r.body.length) openFile r

theorem wire_sendHttpResponse_full {openFile : Bytes → Option Bytes} {r : Response}
    (results : List WriteResult) :
    (sendHttpResponse openFile r (.full :: .full :: results)).wire =
      r.header ++ delivered openFile r := by
  simp only [sendHttpResponse, safeWrite, write, List.take_length, if_true, sendBody, delivered,
    deliveredWith]
  by_cases hfile : r.method = methodGet ∧ r.body ≠ [] ∧ r.filePath ≠ []
  · simp only [if_pos hfile]
    cases hopen : openFile r.filePath with
    | none => rfl
    | some file => simp only [sendfileLoop_full]
  · simp only [if_neg hfile]
    by_cases hget : r.method = methodGet
    · by_cases hbody : r.body = []
      · simp [hget, hbody]
      · simp [hget, hbody, (writeLoop_full r.body results).1]
    · simp [hget]

/-- The file behind a response is at least as long as its body, if it can be opened. -/
def FileFits (openFile : Bytes → Option Bytes) (r : Response) : Prop :=
  r.filePath ≠ [] → ∀ file ∈ openFile r.filePath, r.body.length ≤ file.length

theorem brokenPipe_sendHttpResponse_full {openFile : Bytes → Option Bytes} {r : Response}
    (hfits : FileFits openFile r) (results : List WriteResult) :
    (sendHttpResponse openFile r (.full :: .full :: results)).brokenPipe = some false := by
  simp only [sendHttpResponse, safeWrite, write, if_true, sendBody]
  by_cases hfile : r.method = methodGet ∧ r.body ≠ [] ∧ r.filePath ≠ []
  · simp only [if_pos hfile]
    cases hopen : openFile r.filePath with
    | none => rfl
    | some file =>
        obtain ⟨rest, hended⟩ := ended_sendfileLoop_full (hfits hfile.2.2 file hopen) results
        simp [hended]
  · simp only [if_neg hfile]
    split
    · obtain ⟨-, rest, hended⟩ := writeLoop_full r.body results
      simp [hended]
    · rfl

end HttpUtil

end Sok
