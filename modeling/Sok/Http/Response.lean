import Sok.Http.Headers

/-!
# Responses

The parameters of `send_http_response` and `send_https_response`, which both
write the same header block from them.
-/

namespace Sok

/-- The methods the handlers tell apart. -/
def methodGet : Bytes := ascii "GET"

def methodHead : Bytes := ascii "HEAD"

def methodPost : Bytes := ascii "POST"

theorem methodHead_ne_methodGet : methodHead ≠ methodGet := by decide

theorem methodPost_ne_methodGet : methodPost ≠ methodGet := by decide

theorem methodPost_ne_methodHead : methodPost ≠ methodHead := by decide

def http11 : Bytes := ascii "HTTP/1.1"

def textPlain : Bytes := ascii "text/plain"

/-- The arguments of one call of `send_http_response` or `send_https_response`. -/
structure Response where
  version : Bytes
  statusCode : ℕ
  statusText : Bytes
  mime : Bytes
  body : Bytes
  keepAlive : Bool
  method : Bytes
  /-- Empty unless the body is a static file. -/
  filePath : Bytes
  deriving DecidableEq

namespace Response

/-- The status line, without its line end. -/
def statusLine (r : Response) : Bytes :=
  r.version ++ ascii " " ++ decimal r.statusCode ++ ascii " " ++ r.statusText

/-- The header block both functions write. -/
def header (r : Response) : Bytes :=
  r.statusLine ++ crlf ++
    (if r.mime ≠ [] then ascii "Content-Type: " ++ r.mime ++ crlf else []) ++
    ascii "Server: SOK\r\n" ++
    (ascii "Content-Length: " ++ decimal r.body.length ++ crlf) ++
    (if r.keepAlive then ascii "Connection: keep-alive\r\n" else []) ++
    crlf

theorem length_header_le (r : Response) :
    r.header.length ≤ r.version.length + (decimal r.statusCode).length + r.statusText.length +
      r.mime.length + (decimal r.body.length).length + 79 := by
  have htype : (ascii "Content-Type: ").length = 14 := rfl
  have hserver : (ascii "Server: SOK\r\n").length = 13 := rfl
  have hlength : (ascii "Content-Length: ").length = 16 := rfl
  have hconnection : (ascii "Connection: keep-alive\r\n").length = 24 := rfl
  have hspace : (ascii " ").length = 1 := rfl
  have hcrlf : crlf.length = 2 := rfl
  unfold header statusLine
  simp only [List.length_append, htype, hserver, hlength, hspace, hcrlf, apply_ite List.length,
    hconnection, List.length_nil]
  split <;> split <;> omega

/-- `400 Bad Request`; the two handlers pass different methods. -/
def badRequest (method : Bytes) : Response where
  version := http11
  statusCode := 400
  statusText := ascii "Bad Request"
  mime := textPlain
  body := ascii "400 Bad Request"
  keepAlive := false
  method := method
  filePath := []

/-- `500 Internal Server Error`, sent by the `catch` blocks of `handle_http`. -/
def serverError : Response where
  version := http11
  statusCode := 500
  statusText := ascii "Internal Server Error"
  mime := textPlain
  body := ascii "500 Internal Server Error"
  keepAlive := false
  method := methodGet
  filePath := []

/-- `200 OK` for a static file. -/
def file (version mime content : Bytes) (keepAlive : Bool) (method path : Bytes) : Response where
  version := version
  statusCode := 200
  statusText := ascii "OK"
  mime := mime
  body := content
  keepAlive := keepAlive
  method := method
  filePath := path

/-- `404 Not Found`. -/
def notFound (version : Bytes) (keepAlive : Bool) (method : Bytes) : Response where
  version := version
  statusCode := 404
  statusText := ascii "Not Found"
  mime := textPlain
  body := ascii "404 Not Found"
  keepAlive := keepAlive
  method := method
  filePath := []

/-- `200 OK` for a POST, with the request's body. -/
def echo (version body : Bytes) (keepAlive : Bool) (method : Bytes) : Response where
  version := version
  statusCode := 200
  statusText := ascii "OK"
  mime := textPlain
  body := body
  keepAlive := keepAlive
  method := method
  filePath := []

/-- `501 Not Implemented`. -/
def notImplemented (version : Bytes) (keepAlive : Bool) (method : Bytes) : Response where
  version := version
  statusCode := 501
  statusText := ascii "Not Implemented"
  mime := textPlain
  body := ascii "501 Not Implemented"
  keepAlive := keepAlive
  method := method
  filePath := []

/-! ## The header block as header fields -/

/-- Version and status text have no line feed, and the MIME type is a header value. -/
structure WellFormed (r : Response) : Prop where
  version_lf : lf ∉ r.version
  statusText_lf : lf ∉ r.statusText
  mime_trimmed : Trimmed r.mime
  mime_lf : lf ∉ r.mime

/-- A line `name: value` that the header writer emits. -/
def fieldOf (name value : Bytes) (hname : Trimmed name ∧ colon ∉ name ∧ lf ∉ name)
    (hvalue : Trimmed value ∧ lf ∉ value) : Field where
  name := name
  before := ascii " "
  value := value
  after := []
  name_trimmed := hname.1
  name_colon := hname.2.1
  name_lf := hname.2.2
  before_blank := List.all_eq_true.mp (by decide)
  value_trimmed := hvalue.1
  value_lf := hvalue.2
  after_blank := by simp

theorem decimal_fit (n : ℕ) : Trimmed (decimal n) ∧ lf ∉ decimal n := by
  have hblank : ∀ b ∈ decimal n, isBlankCr b = false := by
    intro b hb
    have hdigit := mem_decimal hb
    rw [UInt8.le_iff_toNat_le, UInt8.le_iff_toNat_le] at hdigit
    have h48 : (48 : UInt8).toNat = 48 := rfl
    rw [h48] at hdigit
    simp only [isBlankCr, Bool.or_eq_false_iff, beq_eq_false_iff_ne, ne_eq]
    refine ⟨⟨?_, ?_⟩, ?_⟩ <;>
      · rintro rfl
        exact absurd hdigit.1 (by decide)
  refine ⟨⟨fun b hb => hblank b (List.mem_of_mem_head? hb),
    fun b hb => hblank b (List.mem_of_mem_getLast? hb)⟩, fun hmem => ?_⟩
  exact absurd (mem_decimal hmem).1 (by decide)

/-- The fields of the header block, in the order they are written. -/
def fields (r : Response) (hr : r.WellFormed) : List Field :=
  (if r.mime ≠ [] then
    [fieldOf (ascii "Content-Type") r.mime (by decide) ⟨hr.mime_trimmed, hr.mime_lf⟩] else []) ++
  [fieldOf (ascii "Server") (ascii "SOK") (by decide) (by decide),
   fieldOf (ascii "Content-Length") (decimal r.body.length) (by decide) (decimal_fit _)] ++
  (if r.keepAlive then
    [fieldOf (ascii "Connection") (ascii "keep-alive") (by decide) (by decide)] else [])

theorem header_eq (r : Response) (hr : r.WellFormed) :
    r.header = r.statusLine ++ [cr] ++ lf :: ((r.fields hr).flatMap Field.render ++ crlf) := by
  have htype : ascii "Content-Type: " = ascii "Content-Type" ++ colon :: ascii " " := by decide
  have hserver : ascii "Server: SOK\r\n" =
      ascii "Server" ++ colon :: (ascii " " ++ (ascii "SOK" ++ [cr, lf])) := by decide
  have hlength : ascii "Content-Length: " = ascii "Content-Length" ++ colon :: ascii " " := by
    decide
  have hconn : ascii "Connection: keep-alive\r\n" =
      ascii "Connection" ++ colon :: (ascii " " ++ (ascii "keep-alive" ++ [cr, lf])) := by decide
  unfold header fields
  rw [htype, hserver, hlength, hconn]
  by_cases hmime : r.mime = [] <;> cases r.keepAlive <;>
    simp [hmime, fieldOf, Field.render, Field.line, crlf]

theorem lf_notMem_statusLine (r : Response) (hr : r.WellFormed) : lf ∉ r.statusLine ++ [cr] := by
  have hspace : lf ∉ ascii " " := by decide
  simp only [statusLine, List.mem_append, hr.version_lf, hr.statusText_lf, hspace,
    (decimal_fit _).2, List.mem_singleton, or_false, false_or]
  decide

theorem contentLength_fieldMap (r : Response) (hr : r.WellFormed) :
    fieldMap (fun _ => none) (r.fields hr) (ascii "Content-Length") =
      some (decimal r.body.length) := by
  have hserver : ascii "Content-Length" ≠ ascii "Connection" := by decide
  unfold fields fieldMap
  by_cases hmime : r.mime = [] <;> cases r.keepAlive <;>
    simp [hmime, fieldOf, Function.update_of_ne hserver]

end Response

/-! ## How a client reads a response -/

/-- Skip the status line, read the header fields, and stop behind the blank line:
the fields and the bytes after the blank line. -/
def readResponse (wire : Bytes) : Option (Headers × Bytes) :=
  (getline wire).map fun line => HttpUtil.parseHeaders line.2

/-- A client finds the fields the header block was written from, and all that
follows the header block behind the blank line. -/
theorem readResponse_header (r : Response) (hr : r.WellFormed) (payload : Bytes) :
    readResponse (r.header ++ payload) =
      some (fieldMap (fun _ => none) (r.fields hr), payload) := by
  rw [r.header_eq hr, List.append_assoc, List.cons_append, readResponse,
    getline_append (r.lf_notMem_statusLine hr), Option.map_some, parseHeaders_render]

end Sok
