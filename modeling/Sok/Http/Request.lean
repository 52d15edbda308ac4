import Sok.Handler
import Sok.Socket

/-!
# Well-formed requests

A request as a client sends it, header block and body, and what the handler makes
of it when more bytes follow in its buffer.
-/

namespace Sok

/-! ## Header blocks -/

/-- The text ends in its only blank line. -/
def IsHeader (s : Bytes) : Prop :=
  Search.find headerEnd s = some (s.length - 4)

instance (s : Bytes) : Decidable (IsHeader s) :=
  inferInstanceAs (Decidable (_ = _))

theorem IsHeader.four_le {s : Bytes} (h : IsHeader s) : s.length - 4 + 4 = s.length := by
  have hlength := Search.find_add_length_le h
  have hfour : headerEnd.length = 4 := rfl
  omega

/-- The end of a header block is one if it still has the blank line. -/
theorem IsHeader.of_suffix {s r : Bytes} (hr : IsHeader r) (hsuffix : s <:+ r)
    (hoccurs : headerEnd <:+: s) : IsHeader s := by
  obtain ⟨front, rfl⟩ := hsuffix
  obtain ⟨i, hfind⟩ := Search.exists_find hoccurs
  have hle := Search.find_add_length_le hfind
  have hfour : headerEnd.length = 4 := rfl
  -- an occurrence in `s` is one in `r`, and there it can only be the last
  have hthere : headerEnd <:+: (front ++ s).take (front.length + (i + 4)) := by
    rw [List.take_length_add_append]
    exact ((Search.infix_take_iff_of_find hfind (i + 4)).mpr le_rfl).trans
      (List.suffix_append front _).isInfix
  have hreach := (Search.infix_take_iff_of_find hr _).mp hthere
  rw [hfour, hr.four_le, List.length_append] at hreach
  rw [IsHeader, hfind]
  congr 1
  omega

/-! ## When more follows -/

/-- Behind a word of a header block the blank line is still to come. -/
theorem headerEnd_nextToken {s : Bytes} (hs : headerEnd <:+ s) (hne : (nextToken s).1 ≠ []) :
    headerEnd <:+ (nextToken s).2 := by
  have hsplit := nextToken_split s
  have hrest : (nextToken s).2 <:+ s := ⟨_, hsplit.symm⟩
  rcases List.suffix_or_suffix_of_suffix hs hrest with hsuffix | ⟨part, hpart⟩
  · exact hsuffix
  · rcases List.eq_nil_or_concat part with rfl | ⟨part, b, rfl⟩
    · exact ⟨[], hpart.symm⟩
    · obtain ⟨pre, hpre⟩ := hs
      have hfront : pre ++ part.concat b = s.takeWhile isSpace ++ (nextToken s).1 := by
        rw [← List.append_left_inj (nextToken s).2, List.append_assoc, hpart, hpre, ← hsplit]
      -- the last byte of the word would be one of the blank line
      have hlast : (nextToken s).1.getLast hne = b := by
        have hboth := congrArg List.getLast? hfront
        rw [List.getLast?_append_of_ne_nil _ hne, List.getLast?_eq_some_getLast hne] at hboth
        simpa using hboth.symm
      have hblank : ∀ b ∈ headerEnd, isSpace b = true := List.all_eq_true.mp (by decide)
      have hmem : b ∈ headerEnd := by
        rw [← hpart]
        simp
      have hword := isSpace_of_mem_nextToken (hlast ▸ List.getLast_mem hne)
      rw [hblank b hmem] at hword
      exact absurd hword (by simp)

theorem headerEnd_ne_nil {s : Bytes} (h : headerEnd <:+ s) : s ≠ [] := by
  rintro rfl
  exact absurd (List.suffix_nil.mp h) (by decide)

/-- The words of a well-formed header block stay when more follows it. -/
theorem requestLine_append {s : Bytes} (hs : headerEnd <:+ s) (hwell : ¬ (requestLine s).Malformed)
    (more : Bytes) :
    headerEnd <:+ (requestLine s).rest ∧
      requestLine (s ++ more) = { requestLine s with rest := (requestLine s).rest ++ more } := by
  simp only [RequestLine.Malformed, not_or] at hwell
  obtain ⟨hmethod, hpath, hversion⟩ := hwell
  have hbehindMethod := headerEnd_nextToken hs hmethod
  have hbehindPath := headerEnd_nextToken hbehindMethod hpath
  have hbehindVersion := headerEnd_nextToken hbehindPath hversion
  refine ⟨hbehindVersion, ?_⟩
  simp only [requestLine, nextToken_append_right (headerEnd_ne_nil hbehindMethod),
    nextToken_append_right (headerEnd_ne_nil hbehindPath),
    nextToken_append_right (headerEnd_ne_nil hbehindVersion)]

/-- Behind the first line of a header block there is the blank line. -/
theorem blank_mem_getlines {s line rest : Bytes} (hs : headerEnd <:+ s)
    (hline : getline s = some (line, rest)) : [cr] ∈ (getlines rest).map Prod.fst := by
  obtain ⟨front, rfl⟩ := hs
  have hlast : (front ++ crlf).getLast? = some lf := by simp [crlf]
  have hne : getlines (front ++ crlf) ≠ [] := fun hnil =>
    absurd (getlines_eq_nil hnil) (by simp [crlf])
  obtain ⟨first, lines, hlines⟩ := List.exists_cons_of_ne_nil hne
  have hall := getlines_append_of_lf hlast crlf
  rw [List.append_assoc, show crlf ++ crlf = headerEnd from rfl, getlines_eq, hline, hlines,
    List.map_cons, List.cons_append] at hall
  rw [(List.cons.inj hall).2, List.map_append, List.mem_append]
  exact Or.inr (by decide)

theorem headers_append {line : RequestLine} (h : headerEnd <:+ line.rest) (more : Bytes) :
    RequestLine.headers { line with rest := line.rest ++ more } = line.headers := by
  have hlast : line.rest.getLast? = some lf := by
    obtain ⟨front, hrest⟩ := h
    rw [← hrest]
    simp [headerEnd]
  have hlines := getlines_append_of_lf hlast more
  cases hfirst : getline line.rest with
  | none =>
      rw [getline, if_neg (headerEnd_ne_nil h)] at hfirst
      exact absurd hfirst (by simp)
  | some first =>
      obtain ⟨text, rest⟩ := first
      -- the header loop stops at the blank line, before what follows
      have hblank := blank_mem_getlines h hfirst
      cases hmore : getline (line.rest ++ more) with
      | none =>
          rw [getline, if_neg (by simp [headerEnd_ne_nil h])] at hmore
          exact absurd hmore (by simp)
      | some first' =>
          rw [getlines_eq, hmore, getlines_eq line.rest, hfirst, List.map_cons, List.cons_append,
            List.cons.injEq] at hlines
          simp only [RequestLine.headers, hmore, hfirst, HttpUtil.parseHeaders, hlines.2,
            headerLoop_append _ hblank]

theorem IsHeader.suffix {s : Bytes} (h : IsHeader s) : headerEnd <:+ s := by
  have hfour := h.four_le
  have hhead := Search.prefix_drop_of_find h
  have hlength : (s.drop (s.length - 4)).length = headerEnd.length := by
    rw [List.length_drop]
    exact (by omega : s.length - (s.length - 4) = 4)
  rw [hhead.eq_of_length hlength.symm]
  exact List.drop_suffix _ s

/-- More bytes behind a well-formed header block leave its words and its wish to keep the
connection. -/
theorem IsHeader.requestLine_append {s : Bytes} (h : IsHeader s)
    (hwell : ¬ (requestLine s).Malformed) (more : Bytes) :
    (requestLine (s ++ more)).method = (requestLine s).method ∧
      (requestLine (s ++ more)).path = (requestLine s).path ∧
      (requestLine (s ++ more)).version = (requestLine s).version ∧
      (requestLine (s ++ more)).keepAlive = (requestLine s).keepAlive := by
  obtain ⟨hrest, hline⟩ := Sok.requestLine_append h.suffix hwell more
  rw [hline]
  refine ⟨rfl, rfl, rfl, ?_⟩
  rw [RequestLine.keepAlive, RequestLine.keepAlive, headers_append hrest]

/-! ## Requests -/

/-- The declared length of the body: the value of `Content-Length`, or 0. -/
def declaredLength (headers : Headers) : ℕ :=
  match headers (ascii "Content-Length") with
  | none => 0
  | some digits => decimalValue digits

/-- A complete request of a client that wants to keep the connection. -/
structure Request where
  header : Bytes
  body : Bytes
  header_end : IsHeader header
  wellFormed : ¬ (requestLine header).Malformed
  keepAlive : (requestLine header).keepAlive = true
  declared : declaredLength (requestLine header).headers = body.length

namespace Request

def bytes (q : Request) : Bytes :=
  q.header ++ q.body

/-- The bytes of requests sent one after the other. -/
def stream (requests : List Request) : Bytes :=
  requests.flatMap bytes

end Request

/-- A GET for the page that keeps the connection. -/
def keptRequest : Request where
  header := ascii "GET / HTTP/1.1\r\nConnection: keep-alive\r\n\r\n"
  body := []
  header_end := by decide
  wellFormed := by decide
  keepAlive := by decide
  declared := by decide

/-! ## What handle_http takes from the socket -/

/-- The bytes `handle_http` leaves in the socket. -/
def HttpUtil.left (run : HandlerRun RecvStop) : Bytes :=
  unreadBytes run.unread

theorem readLoop_results {unread : Bytes} {i : ℕ} (hfind : Search.find headerEnd unread = some i)
    (ended : Bool) :
    readLoop .again [] (Socket.results ⟨unread, ended⟩) =
      ⟨unread.take (blockEnd (i + 4)), none,
        (blocks (unread.drop (blockEnd (i + 4)))).map .data ++
          [.stop (if ended then .eof else .again)]⟩ :=
  readLoop_found hfind

/-- With a whole header block in the socket `handle_http` answers what is in the
blocks up to its end, and leaves the rest. -/
theorem handleHttp_found (env : Env) (site : SiteInfo) (writes : List WriteResult) {unread : Bytes}
    {i : ℕ} (hfind : Search.find headerEnd unread = some i) (ended : Bool) :
    (HttpUtil.handleHttp env site (Socket.results ⟨unread, ended⟩) writes).response =
        (HttpUtil.answer env site (unread.take (blockEnd (i + 4)))).response ∧
      HttpUtil.left (HttpUtil.handleHttp env site (Socket.results ⟨unread, ended⟩) writes) =
        unread.drop (blockEnd (i + 4)) := by
  have hread := readLoop_results hfind ended
  have hanswers : HttpUtil.Answers (Socket.results ⟨unread, ended⟩) := by
    rw [HttpUtil.Answers, hread]
    simp
  have hreceived : HttpUtil.received (Socket.results ⟨unread, ended⟩) =
      unread.take (blockEnd (i + 4)) := by
    rw [HttpUtil.received, hread]
  obtain ⟨r, hr⟩ := HttpUtil.exists_response env site
    (HttpUtil.received (Socket.results ⟨unread, ended⟩))
  rw [HttpUtil.handleHttp_answers env site writes hanswers hr, HttpUtil.left, hread,
    unreadBytes_blocks]
  rw [hreceived] at hr
  exact ⟨hr.symm, by simp [unreadBytes]⟩

end Sok
