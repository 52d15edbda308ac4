import Sok.Http.Request

/-!
# Request boundaries

`handle_http` reads whole blocks until it has seen a blank line, answers what is in
its buffer as one request, and forgets the buffer.  So a call takes what lies in the
blocks up to the end of the first header block, whatever the requests are, and
consecutive requests are kept apart only when each of them ends where that block
ends (`Aligned`).
-/

namespace Sok

/-- Calls of `handle_http` one after the other: the response of each, and the bytes it
takes from the socket.  `writes` gives the results of its writes. -/
def successiveCalls (env : Env) (site : SiteInfo) (writes : ℕ → List WriteResult) :
    ℕ → Bytes → List (Option Response × Bytes)
  | 0, _ => []
  | n + 1, unread =>
      let run := HttpUtil.handleHttp env site (Socket.results ⟨unread, false⟩) (writes n)
      (run.response, unread.take (unread.length - (HttpUtil.left run).length)) ::
        successiveCalls env site writes n (HttpUtil.left run)

/-- Each request is answered, on its own and in order, by a call that takes its bytes. -/
def ServedApart (env : Env) (site : SiteInfo) (writes : ℕ → List WriteResult)
    (requests : List Request) : Prop :=
  successiveCalls env site writes requests.length (Request.stream requests) =
    requests.map fun q => ((HttpUtil.answer env site q.bytes).response, q.bytes)

/-- Every request but the last ends where the block with the end of its header block
ends, and the last one does not go beyond it. -/
def Aligned : List Request → Prop
  | [] => True
  | [q] => q.bytes.length ≤ blockEnd q.header.length
  | q :: next :: rest => q.bytes.length = blockEnd q.header.length ∧ Aligned (next :: rest)

theorem Request.bytes_ne_nil (q : Request) : q.bytes ≠ [] := by
  intro hnil
  have hheader := (List.append_eq_nil_iff.mp hnil).1
  exact q.wellFormed (hheader ▸ malformed_nil)

theorem Request.stream_eq_nil_iff {requests : List Request} :
    Request.stream requests = [] ↔ requests = [] := by
  cases requests with
  | nil => simp [Request.stream]
  | cons q rest => simp [Request.stream, q.bytes_ne_nil]

/-- The first blank line of a stream is that of its first request. -/
theorem Request.find_stream (q : Request) (rest : List Request) :
    Search.find headerEnd (Request.stream (q :: rest)) = some (q.header.length - 4) := by
  rw [Request.stream, List.flatMap_cons, Request.bytes, List.append_assoc]
  exact Search.find_append _ q.header_end

/-- One call takes the bytes of the first request exactly when they end with the block. -/
theorem take_stream_iff (q : Request) (rest : List Request) :
    (Request.stream (q :: rest)).take (blockEnd q.header.length) = q.bytes ↔
      if rest = [] then q.bytes.length ≤ blockEnd q.header.length
      else q.bytes.length = blockEnd q.header.length := by
  rw [Request.stream, List.flatMap_cons, ← Request.stream]
  by_cases hrest : rest = []
  · subst hrest
    simp [Request.stream, List.take_eq_self_iff]
  · have hpos := List.length_pos_of_ne_nil (Request.stream_eq_nil_iff.not.mpr hrest)
    rw [if_neg hrest]
    constructor
    · intro htake
      have hlength := congrArg List.length htake
      rw [List.length_take, List.length_append] at hlength
      omega
    · intro hlength
      rw [← hlength, List.take_left]

theorem aligned_cons_iff (q : Request) (rest : List Request) :
    Aligned (q :: rest) ↔
      (if rest = [] then q.bytes.length ≤ blockEnd q.header.length
        else q.bytes.length = blockEnd q.header.length) ∧ Aligned rest := by
  cases rest <;> simp [Aligned]

theorem drop_stream {q : Request} {rest : List Request} {n : ℕ}
    (htake : (Request.stream (q :: rest)).take n = q.bytes) :
    (Request.stream (q :: rest)).drop n = Request.stream rest := by
  have hsplit :
      q.bytes ++ (Request.stream (q :: rest)).drop n = q.bytes ++ Request.stream rest :=
    calc q.bytes ++ (Request.stream (q :: rest)).drop n
        = (Request.stream (q :: rest)).take n ++ (Request.stream (q :: rest)).drop n := by
          rw [htake]
      _ = Request.stream (q :: rest) := List.take_append_drop _ _
      _ = q.bytes ++ Request.stream rest := rfl
  exact List.append_cancel_left hsplit

theorem take_sub_length_drop (s : Bytes) (n : ℕ) :
    s.take (s.length - (s.drop n).length) = s.take n := by
  rw [List.length_drop]
  by_cases hn : n ≤ s.length
  · rw [Nat.sub_sub_self hn]
  · rw [List.take_of_length_le (by omega), List.take_of_length_le (by omega)]

/-- **Request boundaries.**  Successive calls keep the requests apart exactly when
the requests are aligned with the blocks. -/
theorem request_boundaries_iff (env : Env) (site : SiteInfo) (writes : ℕ → List WriteResult)
    (requests : List Request) : ServedApart env site writes requests ↔ Aligned requests := by
  induction requests with
  | nil => simp [ServedApart, successiveCalls, Aligned]
  | cons q rest ih =>
      obtain ⟨hresponse, hleft⟩ := handleHttp_found env site (writes rest.length)
        (q.find_stream rest) false
      rw [q.header_end.four_le] at hresponse hleft
      rw [ServedApart, List.length_cons, successiveCalls, List.map_cons, List.cons.injEq,
        Prod.mk.injEq]
      simp only [hresponse, hleft, take_sub_length_drop]
      rw [aligned_cons_iff, ← take_stream_iff]
      constructor
      · rintro ⟨⟨-, htake⟩, htail⟩
        rw [drop_stream htake] at htail
        exact ⟨htake, ih.mp htail⟩
      · rintro ⟨htake, haligned⟩
        rw [htake, drop_stream htake]
        exact ⟨⟨rfl, rfl⟩, ih.mpr haligned⟩

/-- Of two requests that arrived together the first call takes both, and the second
is never answered. -/
theorem second_request_lost :
    ¬ ∀ (env : Env) (site : SiteInfo) (writes : ℕ → List WriteResult) (requests : List Request),
      ServedApart env site writes requests := by
  intro h
  have hserved := h pages shop (fun _ => [.full, .full]) [keptRequest, keptRequest]
  rw [ServedApart] at hserved
  exact absurd hserved (by decide +kernel)

end Sok
