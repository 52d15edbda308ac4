import Sok.Http.Headers

/-!
# MIME types

`FileCache::get_mime_type`.  Every value of its table can stand as a header
value: it is not empty, has no line feed and nothing that trimming removes.
-/

namespace Sok.FileCache

/-- `::tolower` on a byte in the C locale. -/
def toLower (b : UInt8) : UInt8 :=
  if 65 ≤ b ∧ b ≤ 90 then b + 32 else b

/-- The type of a file whose extension is not in the table. -/
def octetStream : Bytes := ascii "application/octet-stream"

/-- The table `mime_types`. -/
def mimeTypes : List (Bytes × Bytes) :=
  [(ascii "html", ascii "text/html; charset=utf-8"),
   (ascii "htm", ascii "text/html; charset=utf-8"),
   (ascii "css", ascii "text/css; charset=utf-8"),
   (ascii "js", ascii "application/javascript; charset=utf-8"),
   (ascii "json", ascii "application/json; charset=utf-8"),
   (ascii "png", ascii "image/png"),
   (ascii "jpg", ascii "image/jpeg"),
   (ascii "jpeg", ascii "image/jpeg"),
   (ascii "gif", ascii "image/gif"),
   (ascii "svg", ascii "image/svg+xml"),
   (ascii "txt", ascii "text/plain; charset=utf-8"),
   (ascii "ico", ascii "image/x-icon")]

/-- The dot that `find_last_of` looks for. -/
abbrev dot : UInt8 := 46

/-- `get_mime_type`. -/
def getMimeType (path : Bytes) : Bytes :=
  if dot ∉ path then octetStream
  else
    let ext := (path.rtakeWhile (· != dot)).map toLower
    (mimeTypes.lookup ext).getD octetStream

/-- What is true of every value of the table and of the default is true of every type. -/
theorem forall_getMimeType {P : Bytes → Prop} (htable : ∀ entry ∈ mimeTypes, P entry.2)
    (hdefault : P octetStream) (path : Bytes) : P (getMimeType path) := by
  unfold getMimeType
  split
  · exact hdefault
  · dsimp only
    cases hlookup : mimeTypes.lookup ((path.rtakeWhile (· != dot)).map toLower) with
    | none => exact hdefault
    | some mime =>
        obtain ⟨front, back, hsplit, -⟩ := List.lookup_eq_some_iff.mp hlookup
        exact htable _ (hsplit ▸ List.mem_append_right front List.mem_cons_self)

/-- What `get_mime_type` can return is fit for a header line. -/
theorem getMimeType_fit (path : Bytes) :
    getMimeType path ≠ [] ∧ lf ∉ getMimeType path ∧ Trimmed (getMimeType path) := by
  have htable : ∀ entry ∈ mimeTypes, entry.2 ≠ [] ∧ lf ∉ entry.2 ∧ Trimmed entry.2 := by decide
  have hdefault : octetStream ≠ [] ∧ lf ∉ octetStream ∧ Trimmed octetStream := by decide
  exact forall_getMimeType (P := fun mime => mime ≠ [] ∧ lf ∉ mime ∧ Trimmed mime) htable
    hdefault path

theorem length_getMimeType_le (path : Bytes) : (getMimeType path).length ≤ 37 := by
  have htable : ∀ entry ∈ mimeTypes, entry.2.length ≤ 37 := by decide
  have hdefault : octetStream.length ≤ 37 := by decide
  exact forall_getMimeType (P := fun mime => mime.length ≤ 37) htable hdefault path

end Sok.FileCache
