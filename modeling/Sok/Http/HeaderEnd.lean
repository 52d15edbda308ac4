import Sok.Http.RequestLine

/-!
# The end of the header block

`handle_http` finds the end of the header block twice.  For the body of a POST it searches the
request for `"\r\n\r\n"`; `parse_headers` reads lines up to one that is a lone carriage return,
and a line also ends at a line feed without a carriage return before it.  So `parse_headers`
stops behind the first `"\n\r\n"` of the request, which may be an earlier one than that in the
first `"\r\n\r\n"`.
-/

namespace Sok

open Words (words)

/-! ## Where parse_headers stops -/

/-- A line that is a lone carriage return, with the line feed before it. -/
def emptyLine : Bytes := [lf, cr, lf]

/-- What follows the first empty line. -/
def behindEmptyLine (s : Bytes) : Bytes :=
  match Search.find emptyLine s with
  | none => []
  | some j => s.drop (j + 3)

/-- A front in which no empty line begins does not matter. -/
theorem behindEmptyLine_append {front s : Bytes}
    (h : ∀ k < front.length, ¬ emptyLine <+: (front ++ s).drop k) :
    behindEmptyLine (front ++ s) = behindEmptyLine s := by
  rw [behindEmptyLine, Search.find_append_of_no_start h, behindEmptyLine]
  cases Search.find emptyLine s with
  | none => rfl
  | some j =>
      show (front ++ s).drop (front.length + j + 3) = s.drop (j + 3)
      rw [Nat.add_assoc, List.drop_append, List.drop_eq_nil_of_le (by omega)]
      simp

theorem lf_of_drop_append {front rest : Bytes} {k : ℕ} (hk : k < front.length)
    (h : emptyLine <+: (front ++ rest).drop k) : front[k] = lf := by
  obtain ⟨more, hmore⟩ := h
  have hget : (front ++ rest)[k]? = some lf := by
    rw [← List.head?_drop, ← hmore]
    rfl
  rw [List.getElem?_append_left hk, List.getElem?_eq_getElem hk] at hget
  exact Option.some.inj hget

theorem getlines_of_notMem {s : Bytes} (hne : s ≠ []) (h : lf ∉ s) : getlines s = [(s, [])] := by
  have hall : ∀ b ∈ s, (b != lf) = true := fun b hb => by
    simpa using fun heq : b = lf => h (heq ▸ hb)
  rw [getlines_eq, getline, if_neg hne, List.takeWhile_eq_self_iff.mpr hall,
    List.dropWhile_eq_nil_iff.mpr hall]
  rfl

theorem behindEmptyLine_of_notMem {s : Bytes} (h : lf ∉ s) : behindEmptyLine (lf :: s) = [] := by
  unfold behindEmptyLine
  split
  · rfl
  · rename_i j hfind
    obtain ⟨more, hmore⟩ := Search.prefix_drop_of_find hfind
    have htail : s.drop j = cr :: lf :: more := by
      have hdrop := congrArg List.tail hmore.symm
      simpa [emptyLine] using hdrop
    have hmem : lf ∈ s.drop j := by simp [htail]
    exact absurd (List.mem_of_mem_drop hmem) h

/-- No empty line begins in the line feed before a line, or in the line. -/
theorem no_emptyLine_in_line {line rest : Bytes} (hline : lf ∉ line) (hcr : line ≠ [cr]) :
    ∀ k < (lf :: line).length, ¬ emptyLine <+: ((lf :: line) ++ lf :: rest).drop k := by
  intro k hk hprefix
  cases k with
  | zero =>
      rw [List.drop_zero, List.cons_append, emptyLine, List.cons_prefix_cons] at hprefix
      have hstart : [cr, lf] <+: line ++ lf :: rest := hprefix.2
      cases line with
      | nil => exact absurd (List.cons_prefix_cons.mp hstart).1 (by decide)
      | cons b tail =>
          obtain ⟨rfl, hlf⟩ := List.cons_prefix_cons.mp hstart
          cases tail with
          | nil => exact hcr rfl
          | cons c tail =>
              obtain ⟨rfl, -⟩ := List.cons_prefix_cons.mp hlf
              exact hline (by simp)
  | succ k =>
      have hget := lf_of_drop_append hk hprefix
      exact hline (hget ▸ List.getElem_mem _)

/-- The loop stops behind the first empty line, the first line being one if it is a lone carriage
return. -/
theorem headerLoop_rest (headers : Headers) (s : Bytes) :
    (HttpUtil.headerLoop headers (getlines s)).2 = behindEmptyLine (lf :: s) := by
  induction hlength : s.length using Nat.strong_induction_on generalizing s headers with
  | _ n ih =>
      subst hlength
      by_cases hmem : lf ∈ s
      · obtain ⟨line, rest, rfl, hline⟩ := List.eq_append_cons_of_mem hmem
        rw [getlines_append rest hline, HttpUtil.headerLoop]
        by_cases hcr : line = [cr]
        · have hfind : Search.find emptyLine (lf :: ([cr] ++ lf :: rest)) = some 0 :=
            Search.find_eq_zero ⟨rest, rfl⟩
          rw [if_pos hcr, hcr, behindEmptyLine, hfind]
          rfl
        · rw [if_neg hcr, ih rest.length (by simp; omega) _ rest rfl]
          exact (behindEmptyLine_append (no_emptyLine_in_line hline hcr)).symm
      · rw [behindEmptyLine_of_notMem hmem]
        by_cases hnil : s = []
        · rw [hnil]
          rfl
        · rw [getlines_of_notMem hnil hmem, HttpUtil.headerLoop]
          split <;> rfl

theorem parseHeaders_rest (s : Bytes) : (HttpUtil.parseHeaders s).2 = behindEmptyLine (lf :: s) :=
  headerLoop_rest _ s

/-! ## The stream behind the request line -/

/-- A word ends in a byte that is not white space. -/
theorem exists_front_of_nextToken {s : Bytes} (h : (nextToken s).1 ≠ []) :
    ∃ front b, s = front ++ b :: (nextToken s).2 ∧ isSpace b = false := by
  refine ⟨s.takeWhile isSpace ++ (nextToken s).1.dropLast, (nextToken s).1.getLast h, ?_, ?_⟩
  · conv_lhs => rw [nextToken_split s, ← List.dropLast_append_getLast h]
    simp only [List.append_assoc, List.cons_append, List.nil_append]
  · exact isSpace_of_mem_nextToken (List.getLast_mem h)

theorem nextToken_ne_nil_of_not_malformed {s : Bytes} (h : ¬ (requestLine s).Malformed) :
    (nextToken s).1 ≠ [] ∧ (nextToken (nextToken s).2).1 ≠ [] ∧
      (nextToken (nextToken (nextToken s).2).2).1 ≠ [] := by
  simp only [RequestLine.Malformed, not_or] at h
  exact h

theorem exists_front_of_requestLine {s : Bytes} (h : ¬ (requestLine s).Malformed) :
    ∃ front b, s = front ++ b :: (requestLine s).rest ∧ isSpace b = false := by
  obtain ⟨hmethod, hpath, hversion⟩ := nextToken_ne_nil_of_not_malformed h
  obtain ⟨front, b, hfront, -⟩ := exists_front_of_nextToken hmethod
  obtain ⟨middle, c, hmiddle, -⟩ := exists_front_of_nextToken hpath
  obtain ⟨back, d, hback, hd⟩ := exists_front_of_nextToken hversion
  refine ⟨front ++ b :: (middle ++ c :: back), d, ?_, hd⟩
  calc s
      = front ++ b :: (nextToken s).2 := hfront
    _ = front ++ b :: (middle ++ c :: (nextToken (nextToken s).2).2) := by rw [← hmiddle]
    _ = front ++ b :: (middle ++ c :: (back ++ d :: (requestLine s).rest)) :=
        congrArg (fun rest => front ++ b :: (middle ++ c :: rest)) hback
    _ = front ++ b :: (middle ++ c :: back) ++ d :: (requestLine s).rest := by
        simp only [List.append_assoc, List.cons_append]

theorem nextToken_dropWhile (s : Bytes) : nextToken (s.dropWhile isSpace) = nextToken s := by
  simp only [nextToken, List.dropWhile_idempotent]

/-- A word ends before white space that follows. -/
theorem nextToken_append_space {s : Bytes} (h : (nextToken s).1 ≠ []) {space : UInt8}
    (hspace : isSpace space = true) (more : Bytes) :
    nextToken (s ++ space :: more) = ((nextToken s).1, (nextToken s).2 ++ space :: more) := by
  by_cases hrest : (nextToken s).2 = []
  · -- the text ends in its word
    have hword : s.dropWhile isSpace = (nextToken s).1 := by
      have hsplit := (List.takeWhile_append_dropWhile (p := fun b => !isSpace b)
        (l := s.dropWhile isSpace)).symm
      rw [show (s.dropWhile isSpace).dropWhile (fun b => !isSpace b) = [] from hrest,
        List.append_nil] at hsplit
      exact hsplit
    have hskip : (s ++ space :: more).dropWhile isSpace =
        s.dropWhile isSpace ++ space :: more := by
      rw [List.dropWhile_append, if_neg (by simpa [hword] using h)]
    have hnext := nextToken_append more h (fun b hb => isSpace_of_mem_nextToken hb) hspace
    rw [← nextToken_dropWhile, hskip, hword, hnext, hrest, List.nil_append]
  · exact nextToken_append_right hrest (space :: more)

theorem requestLine_append_space {s : Bytes} (h : ¬ (requestLine s).Malformed) {space : UInt8}
    (hspace : isSpace space = true) (more : Bytes) :
    (requestLine (s ++ space :: more)).rest = (requestLine s).rest ++ space :: more := by
  obtain ⟨hmethod, hpath, hversion⟩ := nextToken_ne_nil_of_not_malformed h
  simp only [requestLine, nextToken_append_space hmethod hspace,
    nextToken_append_space hpath hspace, nextToken_append_space hversion hspace]

theorem find_crlf_firstLine {request : Bytes} (h : crlf <:+: request) :
    Search.find crlf request = some (firstLine request).length := by
  obtain ⟨i, hfind⟩ := Search.exists_find h
  have hle := Search.find_add_length_le hfind
  have htwo : crlf.length = 2 := rfl
  rw [firstLine, hfind]
  simp only [List.length_take, Option.some.injEq]
  omega

/-- No empty line begins among the words of the first line, or before the first line feed behind
them. -/
theorem no_emptyLine_in_front {front text rest : Bytes} {b : UInt8} {n : ℕ}
    (hb : isSpace b = false) (htext : lf ∉ text)
    (hfind : Search.find crlf ((front ++ b :: text) ++ lf :: rest) = some n)
    (hn : front.length < n) :
    ∀ k < (front ++ b :: text).length,
      ¬ emptyLine <+: ((front ++ b :: text) ++ lf :: rest).drop k := by
  intro k hk hprefix
  have hget := lf_of_drop_append hk hprefix
  rcases lt_trichotomy k front.length with hlt | rfl | hgt
  · -- it would end the first line among the words
    have hcrlf : crlf <+: ((front ++ b :: text) ++ lf :: rest).drop (k + 1) :=
      Search.tail_prefix_drop hprefix
    obtain ⟨i, hi, hfirst⟩ := Search.exists_find_le hcrlf
    have hlength : n = i := Option.some.inj (hfind.symm.trans hfirst)
    omega
  · have hbyte : b = lf := by simpa using hget
    rw [hbyte] at hb
    exact absurd hb (by decide)
  · obtain ⟨j, rfl⟩ : ∃ j, k = front.length + (j + 1) := ⟨k - front.length - 1, by omega⟩
    have hj : j < text.length := by
      rw [List.length_append, List.length_cons] at hk
      omega
    have hbyte : text[j] = lf := by
      rw [List.getElem_append_right (by omega)] at hget
      simpa using hget
    exact htext (hbyte ▸ List.getElem_mem hj)

/-- Behind a first line with three words `parse_headers` stops behind the first empty line of
the request. -/
theorem left_requestLine {request : Bytes} (hline : crlf <:+: request)
    (hthree : 3 ≤ (words isSpace (firstLine request)).length) :
    (requestLine request).left = behindEmptyLine request := by
  have hwell : ¬ (requestLine (firstLine request)).Malformed := by
    rw [malformed_iff]
    omega
  obtain ⟨more, hmore⟩ := exists_behind_firstLine hline
  obtain ⟨front, b, hfront, hb⟩ := exists_front_of_requestLine hwell
  have hrest : (requestLine request).rest =
      (requestLine (firstLine request)).rest ++ cr :: lf :: more := by
    calc (requestLine request).rest
        = (requestLine (firstLine request ++ cr :: lf :: more)).rest :=
          congrArg (fun s => (requestLine s).rest) hmore
      _ = (requestLine (firstLine request)).rest ++ cr :: lf :: more :=
          requestLine_append_space hwell (by decide) _
  -- the line feed that ends the request line
  have hlf : lf ∈ (requestLine request).rest := by simp [hrest]
  obtain ⟨line, rest, hsplit, hnot⟩ := List.eq_append_cons_of_mem hlf
  have hrequest : request = (front ++ b :: line) ++ lf :: rest := by
    calc request
        = firstLine request ++ cr :: lf :: more := hmore
      _ = front ++ b :: (requestLine (firstLine request)).rest ++ cr :: lf :: more :=
          congrArg (· ++ cr :: lf :: more) hfront
      _ = front ++ b :: (requestLine request).rest := by
          rw [hrest, List.append_assoc, List.cons_append]
      _ = (front ++ b :: line) ++ lf :: rest := by
          rw [hsplit, List.append_assoc, List.cons_append]
  have hfind := find_crlf_firstLine hline
  have hlength : front.length < (firstLine request).length := by
    have hparts := congrArg List.length hfront
    rw [List.length_append, List.length_cons] at hparts
    omega
  calc (requestLine request).left
      = (HttpUtil.parseHeaders rest).2 := by
        rw [RequestLine.left, hsplit, getline_append hnot]
    _ = behindEmptyLine (lf :: rest) := parseHeaders_rest rest
    _ = behindEmptyLine ((front ++ b :: line) ++ lf :: rest) := by
        rw [hrequest] at hfind hlength
        exact (behindEmptyLine_append (no_emptyLine_in_front hb hnot hfind hlength)).symm
    _ = behindEmptyLine request := congrArg behindEmptyLine hrequest.symm

/-! ## Both ends -/

/-- The header block that is read and the body of a POST are the two sides of one cut exactly when
the first empty line of the request is that in its first blank line. -/
theorem left_eq_postBody_iff {request : Bytes} (hend : headerEnd <:+: request)
    (hthree : (words isSpace (firstLine request)).length = 3) :
    (requestLine request).left = postBody request ↔
      Search.find emptyLine request = (Search.find headerEnd request).map (· + 1) := by
  rw [left_requestLine (crlf_infix_of_headerEnd hend) hthree.ge]
  obtain ⟨i, hblank⟩ := Search.exists_find hend
  have hle := Search.find_add_length_le hblank
  have hfour : headerEnd.length = 4 := rfl
  have hempty : emptyLine <+: request.drop (i + 1) :=
    Search.tail_prefix_drop (Search.prefix_drop_of_find hblank)
  obtain ⟨j, hj, hfind⟩ := Search.exists_find_le hempty
  simp only [behindEmptyLine, postBody, hfind, hblank, Option.map_some, Option.some.injEq]
  constructor
  · intro hdrop
    have hlength := congrArg List.length hdrop
    simp only [List.length_drop] at hlength
    omega
  · rintro rfl
    rfl

/-- A POST with a body. -/
def postHello : Bytes := ascii "POST / HTTP/1.1\r\nA: b\r\n\r\nhello"

theorem left_eq_postBody_hello :
    headerEnd <:+: postHello ∧ (words isSpace (firstLine postHello)).length = 3 ∧
      ((requestLine postHello).left = postBody postHello ↔
        Search.find emptyLine postHello = (Search.find headerEnd postHello).map (· + 1)) := by
  have hend : headerEnd <:+: postHello := by decide
  have hthree : (words isSpace (firstLine postHello)).length = 3 := by decide
  exact ⟨hend, hthree, left_eq_postBody_iff hend hthree⟩

/-- A header line that ends in a bare line feed, with an empty line behind it. -/
def twoEnds : Bytes := ascii "POST / HTTP/1.1\r\nA: b\n\r\nB: c\r\n\r\nhello"

/-- `parse_headers` stops before a line that the body does not begin with either. -/
theorem bare_line_feed_hides_header :
    headerEnd <:+: twoEnds ∧ (words isSpace (firstLine twoEnds)).length = 3 ∧
      (requestLine twoEnds).left ≠ postBody twoEnds :=
  ⟨by decide, by decide, by decide⟩

end Sok
