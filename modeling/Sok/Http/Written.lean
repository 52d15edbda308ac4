import Sok.Http.HeaderEnd
import Sok.Http.Request

/-!
# Requests as they are written

A request that is written the usual way: a request line of three words with one space
between, header fields, a blank line, and a body.  It is read back as it was written,
whatever of the body follows the blank line, and its blank line is found at the end of its
header block.
-/

namespace Sok

open Words (words)

/-- A word that `operator>>` reads. -/
def IsWord (s : Bytes) : Prop :=
  s ≠ [] ∧ ∀ b ∈ s, isSpace b = false

instance (s : Bytes) : Decidable (IsWord s) :=
  decidable_of_iff (s ≠ [] ∧ s.all (!isSpace ·) = true) <| by
    simp [IsWord, List.all_eq_true]

structure WrittenRequest where
  method : Bytes
  path : Bytes
  version : Bytes
  fields : List Field
  body : Bytes
  method_word : IsWord method
  path_word : IsWord path
  version_word : IsWord version

namespace WrittenRequest

variable (q : WrittenRequest)

/-- The request line, without its line end. -/
def line : Bytes :=
  q.method ++ 32 :: (q.path ++ 32 :: q.version)

/-- The request up to its blank line. -/
def head : Bytes :=
  q.line ++ crlf ++ (q.fields.flatMap Field.render ++ crlf)

def bytes : Bytes :=
  q.head ++ q.body

/-! ## The request line -/

theorem nextToken_word {word : Bytes} (h : IsWord word) (rest : Bytes) {space : UInt8}
    (hspace : isSpace space = true) :
    nextToken (word ++ space :: rest) = (word, space :: rest) :=
  nextToken_append rest h.1 h.2 hspace

theorem nextToken_space (s : Bytes) : nextToken (32 :: s) = nextToken s := by
  rw [← nextToken_dropWhile, List.dropWhile_cons_of_pos (by decide), nextToken_dropWhile]

/-- The three words are read as they were written. -/
theorem requestLine_head (more : Bytes) :
    requestLine (q.head ++ more) =
      ⟨q.method, q.path, q.version, crlf ++ (q.fields.flatMap Field.render ++ crlf ++ more)⟩ := by
  have hhead : q.head ++ more = q.method ++ 32 :: (q.path ++ 32 :: (q.version ++
      cr :: (lf :: (q.fields.flatMap Field.render ++ crlf ++ more)))) := by
    simp [head, line, crlf]
  rw [hhead]
  simp only [requestLine, nextToken_word q.method_word _ (by decide : isSpace 32 = true),
    nextToken_space, nextToken_word q.path_word _ (by decide : isSpace 32 = true),
    nextToken_word q.version_word _ (by decide : isSpace cr = true)]
  rfl

theorem method_head (more : Bytes) : (requestLine (q.head ++ more)).method = q.method := by
  rw [requestLine_head]

theorem path_head (more : Bytes) : (requestLine (q.head ++ more)).path = q.path := by
  rw [requestLine_head]

theorem version_head (more : Bytes) : (requestLine (q.head ++ more)).version = q.version := by
  rw [requestLine_head]

theorem not_malformed (more : Bytes) : ¬ (requestLine (q.head ++ more)).Malformed := by
  rw [requestLine_head]
  exact not_or.mpr ⟨q.method_word.1, not_or.mpr ⟨q.path_word.1, q.version_word.1⟩⟩

theorem cr_notMem_line : cr ∉ q.line := by
  have hword {s : Bytes} (h : IsWord s) : cr ∉ s := fun hmem => absurd (h.2 cr hmem) (by decide)
  have hspace : cr ≠ 32 := by decide
  simp [line, hspace, hword q.method_word, hword q.path_word, hword q.version_word]

theorem firstLine_head : firstLine q.head = q.line := by
  have hfind : Search.find crlf (q.line ++ crlf ++ (q.fields.flatMap Field.render ++ crlf)) =
      some q.line.length := by
    rw [List.append_assoc, Search.find_append_of_no_start, Search.find_eq_zero ⟨_, rfl⟩]
    · rfl
    · intro k hk hprefix
      have hget : q.line[k]? = some cr := by
        obtain ⟨tail, htail⟩ := hprefix
        rw [← List.getElem?_append_left hk, ← List.head?_drop, ← htail]
        rfl
      exact q.cr_notMem_line (List.mem_of_getElem? hget)
  rw [firstLine, head, hfind]
  simp

theorem length_words_line : (words isSpace q.line).length = 3 := by
  have hspace : isSpace 32 = true := by decide
  rw [line, Words.words_append_cons _ hspace, Words.words_append_cons _ hspace,
    Words.words_of_forall q.method_word.1 q.method_word.2,
    Words.words_of_forall q.path_word.1 q.path_word.2,
    Words.words_of_forall q.version_word.1 q.version_word.2]
  rfl

/-! ## The header fields -/

theorem getline_crlf (rest : Bytes) : getline (crlf ++ rest) = some ([cr], rest) :=
  @getline_append [cr] rest (by decide)

theorem parseHeaders_fields (more : Bytes) :
    HttpUtil.parseHeaders (q.fields.flatMap Field.render ++ crlf ++ more) =
      (lastValue q.fields, more) := by
  rw [parseHeaders_render, fieldMap_eq_lastValue]

/-- The fields are read back, and the stream is left at what follows. -/
theorem headers_head (more : Bytes) :
    (requestLine (q.head ++ more)).headers = lastValue q.fields := by
  rw [requestLine_head, RequestLine.headers, getline_crlf]
  exact congrArg Prod.fst (q.parseHeaders_fields more)

theorem left_head (more : Bytes) : (requestLine (q.head ++ more)).left = more := by
  rw [requestLine_head, RequestLine.left, getline_crlf]
  exact congrArg Prod.snd (q.parseHeaders_fields more)

/-! ## The blank line -/

theorem crlf_suffix_fields (fields : List Field) (front : Bytes) :
    crlf <:+ front ++ crlf ++ fields.flatMap Field.render := by
  rcases List.eq_nil_or_concat fields with rfl | ⟨rest, field, rfl⟩
  · exact ⟨front, by simp⟩
  · refine ⟨front ++ crlf ++ rest.flatMap Field.render ++
      (field.name ++ colon :: (field.before ++ field.value ++ field.after)), ?_⟩
    simp [Field.render, Field.line, crlf]

theorem headerEnd_suffix_head : headerEnd <:+ q.head := by
  obtain ⟨front, hfront⟩ := crlf_suffix_fields q.fields q.line
  refine ⟨front, ?_⟩
  calc front ++ headerEnd
      = front ++ crlf ++ crlf := by simp [headerEnd, crlf]
    _ = q.line ++ crlf ++ q.fields.flatMap Field.render ++ crlf := by rw [hfront]
    _ = q.head := by simp only [head, List.append_assoc]

/-- An earlier blank line would be an empty line that `parse_headers` had stopped at. -/
theorem isHeader_head : IsHeader q.head := by
  have hsuffix := q.headerEnd_suffix_head
  have hfour : headerEnd.length = 4 := rfl
  have hthere : headerEnd <+: q.head.drop (q.head.length - 4) := by
    rw [← hfour, ← List.suffix_iff_eq_drop.mp hsuffix]
  obtain ⟨i, hi, hfind⟩ := Search.exists_find_le hthere
  have hempty : emptyLine <+: q.head.drop (i + 1) :=
    Search.tail_prefix_drop (Search.prefix_drop_of_find hfind)
  obtain ⟨j, hj, hfirst⟩ := Search.exists_find_le hempty
  have hleft : behindEmptyLine q.head = [] := by
    have hwords : 3 ≤ (words isSpace (firstLine q.head)).length := by
      rw [firstLine_head]
      exact q.length_words_line.ge
    have hread := left_requestLine (crlf_infix_of_headerEnd hsuffix.isInfix) hwords
    rw [← hread, ← List.append_nil q.head, left_head]
  have hlength : q.head.length ≤ j + 3 := by
    rw [behindEmptyLine, hfirst] at hleft
    exact List.drop_eq_nil_iff.mp hleft
  rw [IsHeader, hfind]
  congr 1
  omega

theorem find_headerEnd (more : Bytes) :
    Search.find headerEnd (q.head ++ more) = some (q.head.length - 4) :=
  Search.find_append more q.isHeader_head

theorem postBody_head (more : Bytes) : postBody (q.head ++ more) = more := by
  rw [postBody, find_headerEnd]
  show (q.head ++ more).drop (q.head.length - 4 + 4) = more
  rw [q.isHeader_head.four_le, List.drop_left]

end WrittenRequest

end Sok
