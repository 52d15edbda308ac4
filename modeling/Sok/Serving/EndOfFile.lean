import Sok.Serving.ZeroCopy

/-!
# The end of the file in the `sendfile` loop

The loop of `send_http_response` runs until the announced number of bytes is sent or a
call fails.  A call at the end of the file does neither: it returns 0.  The number is
that of the cached body, the file is opened again, so the end of the file can come first.
-/

namespace Sok.HttpUtil

/-- What `sendfile` can return: a positive count, as far as there is something left, or
a failure. -/
def Allowed (result : WriteResult) : Prop := result ≠ .short 0

instance (result : WriteResult) : Decidable (Allowed result) :=
  inferInstanceAs (Decidable (_ ≠ _))

/-- `remain` after the results, as an integer, so that it could be negative. -/
def remainAfter (file : Bytes) (size : ℕ) (results : List WriteResult) : ℤ :=
  size - (sendfileLoop file size results).total

/-- The loop ends after some of the results, and `remain` never wraps. -/
structure LoopEnds (file : Bytes) (size : ℕ) (stream : ℕ → WriteResult) : Prop where
  ends : ∃ calls, (sendfileLoop file size (firstResults stream calls)).ended.isSome
  remain : ∀ calls, 0 ≤ remainAfter file size (firstResults stream calls)

theorem remainAfter_nonneg (file : Bytes) (size : ℕ) (results : List WriteResult) :
    0 ≤ remainAfter file size results := by
  have hle := (Transfer.loop_total_le (bounded_sendfile file size) (Nat.zero_le _)
    (Nat.zero_le _) results).1
  unfold remainAfter sendfileLoop
  omega

theorem sendfile_pos {left count moved : ℕ} {result : WriteResult} (hallowed : Allowed result)
    (hleft : 0 < left) (hcount : 0 < count) (h : sendfile left count result = .ok moved) :
    0 < moved := by
  cases result with
  | full =>
      obtain rfl := Except.ok.inj h
      exact lt_min hcount hleft
  | short n =>
      have hn : 0 < n := Nat.pos_of_ne_zero fun hzero => hallowed (by rw [hzero])
      obtain rfl := Except.ok.inj h
      exact lt_min hn (lt_min hcount hleft)
  | fail error => exact absurd h (by simp [sendfile, write])

/-- A file that is long enough is sent after at most as many calls as it has bytes. -/
theorem ended_of_long_file {file : Bytes} {size : ℕ} {stream : ℕ → WriteResult}
    (hallowed : ∀ call, Allowed (stream call)) (hlong : size ≤ file.length) :
    (sendfileLoop file size (firstResults stream size)).ended.isSome := by
  refine Transfer.ended_of_progress ?_ (by simp)
  intro total result hlt hmem moved hmoved
  obtain ⟨call, -, rfl⟩ := List.mem_map.mp hmem
  exact sendfile_pos (hallowed call) (by omega) (by omega) hmoved

theorem ended_of_failure {file : Bytes} {size : ℕ} {stream : ℕ → WriteResult} {call : ℕ}
    {error : Errno} (hfail : stream call = .fail error) :
    (sendfileLoop file size (firstResults stream (call + 1))).ended.isSome := by
  have hmem : stream call ∈ firstResults stream (call + 1) :=
    List.mem_map.mpr ⟨call, by simp, rfl⟩
  refine Transfer.ended_of_error hmem fun total => ⟨error, ?_⟩
  rw [hfail]
  rfl

/-- **The loop ends**, for every file, announced size and sequence of results, when
and only when the file has as many bytes as were announced or some call fails. -/
theorem sendfile_ends_iff (file : Bytes) (size : ℕ) (stream : ℕ → WriteResult)
    (hallowed : ∀ call, Allowed (stream call)) :
    LoopEnds file size stream ↔
      size ≤ file.length ∨ ∃ call error, stream call = .fail error := by
  constructor
  · rintro ⟨⟨calls, hended⟩, -⟩
    by_contra hnot
    obtain ⟨hshort, hnever⟩ := not_or.mp hnot
    -- no call fails, and at the end of the file they all return 0
    have hrunning : (sendfileLoop file size (firstResults stream calls)).ended = none := by
      refine Transfer.ended_eq_none_of_short (bounded_sendfile file size) (not_le.mp hshort) ?_
      intro result hmem total error hfails
      obtain ⟨call, -, rfl⟩ := List.mem_map.mp hmem
      cases hresult : stream call with
      | fail error' => exact hnever ⟨call, error', hresult⟩
      | full => exact absurd hfails (by simp [hresult, sendfile, write])
      | short n => exact absurd hfails (by simp [hresult, sendfile, write])
    rw [hrunning] at hended
    exact absurd hended (by simp)
  · intro h
    refine ⟨?_, fun calls => remainAfter_nonneg file size _⟩
    rcases h with hlong | ⟨call, error, hfail⟩
    · exact ⟨size, ended_of_long_file hallowed hlong⟩
    · exact ⟨call + 1, ended_of_failure hfail⟩

/-- A page that has grown is sent in one call. -/
theorem sendfile_ends_grown_page :
    LoopEnds (ascii "longer page") 4 fun _ => .full :=
  (sendfile_ends_iff (ascii "longer page") 4 (fun _ => .full) fun _ => by decide).mpr
    (Or.inl (by decide))

/-- The file was emptied since it was cached. -/
theorem sendfile_of_emptied_file :
    ¬ ∀ (file : Bytes) (size : ℕ) (stream : ℕ → WriteResult),
      (∀ call, Allowed (stream call)) → LoopEnds file size stream := by
  intro h
  obtain ⟨calls, hended⟩ := (h [] 4 (fun _ => .full) fun _ => by decide).ends
  have hrunning : (sendfileLoop [] 4 (firstResults (fun _ => .full) calls)).ended = none := by
    refine Transfer.ended_eq_none_of_short (bounded_sendfile [] 4) (by decide) ?_
    intro result hmem total error
    obtain ⟨call, -, rfl⟩ := List.mem_map.mp hmem
    simp [sendfile, write]
  rw [hrunning] at hended
  exact absurd hended (by simp)

end Sok.HttpUtil
