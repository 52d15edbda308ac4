import Sok.Handler

/-!
# What a partial write leaves on the connection

Whatever the calls that write return, the bytes on the connection should be the
beginning of the response, and the connection should be kept only when they are
all of it (`Intact`).

Both senders go on to the body after a header block of which only a part was
taken, or nothing because the call would have blocked, and both return from the
middle of a body as if it had been sent.  `HttpUtil.Unharmed` and
`HttpsUtil.Unharmed` are the conditions on the results under which this does no
harm: they say, for a header block that was taken whole and for one that was cut,
what has to be true of the calls for the body.
-/

namespace Sok

/-! ## The intended response -/

namespace Response

/-- The body a client gets: there is none after a HEAD. -/
def owedBody (r : Response) : Bytes :=
  if r.method = methodHead then [] else r.body

/-- Header block and body. -/
def intended (r : Response) : Bytes :=
  r.header ++ r.owedBody

theorem owedBody_of_get {r : Response} (hget : r.method = methodGet) : r.owedBody = r.body := by
  have hhead : r.method ≠ methodHead := by
    rw [hget]
    decide
  rw [owedBody, if_neg hhead]

end Response

/-- The bytes on the connection are the beginning of the response, and all of it
when the connection is kept. -/
def Intact (r : Response) (wire : Bytes) (returned : Option Bool) : Prop :=
  wire <+: r.intended ∧ (returned = some true → wire = r.intended)

/-- Of the header block `taken` bytes are on the connection, and behind them the
bytes `out`. -/
theorem intact_iff {r : Response} (taken : ℕ) (out : Bytes) (brokenPipe : Option Bool) :
    Intact r (r.header.take taken ++ out) (brokenPipe.map fun broken => !broken && r.keepAlive) ↔
      out <+: r.header.drop taken ++ r.owedBody ∧
        (r.keepAlive = true → brokenPipe = some false →
          out = r.header.drop taken ++ r.owedBody) := by
  have hsplit : r.intended = r.header.take taken ++ (r.header.drop taken ++ r.owedBody) := by
    rw [← List.append_assoc, List.take_append_drop, Response.intended]
  have hkept : (brokenPipe.map fun broken => !broken && r.keepAlive) = some true ↔
      brokenPipe = some false ∧ r.keepAlive = true := by
    cases brokenPipe <;> simp
  rw [Intact, hsplit, List.prefix_append_right_inj, List.append_cancel_left_eq, hkept]
  simp only [and_imp]
  exact and_congr_right fun _ => forall_comm

/-- Nothing follows the header block: that is right for a whole one without a body, and
for any other when the connection is not kept. -/
theorem intact_nothing_iff {r : Response} {taken : ℕ} (htaken : taken ≤ r.header.length) :
    Intact r (r.header.take taken) (some r.keepAlive) ↔
      if taken = r.header.length then r.keepAlive = true → r.owedBody = []
      else r.keepAlive = false := by
  have h := intact_iff (r := r) taken [] (some false)
  by_cases hwhole : taken = r.header.length
  · simpa [hwhole] using h
  · have hcut : ¬ r.header.length ≤ taken := by omega
    simpa [hwhole, hcut] using h

/-- Nothing follows, and there is a body: the connection must not be kept. -/
theorem intact_unsent_body_iff {r : Response} {taken : ℕ} (hget : r.method = methodGet)
    (hbody : r.body ≠ []) (htaken : taken ≤ r.header.length) :
    Intact r (r.header.take taken) (some r.keepAlive) ↔ r.keepAlive = false := by
  have howed : r.owedBody ≠ [] := by
    rw [Response.owedBody_of_get hget]
    exact hbody
  rw [intact_nothing_iff htaken]
  simp [howed]

/-- Whatever was taken of the header block, a connection that is not kept is left intact. -/
theorem intact_of_not_kept (r : Response) (taken : ℕ) {returned : Option Bool}
    (h : returned ≠ some true) : Intact r (r.header.take taken) returned :=
  ⟨(List.take_prefix _ _).trans (List.prefix_append _ _), fun hkept => absurd hkept h⟩

/-- A piece of the source is all that is owed when it is part of it and as long. -/
theorem eq_iff_length_eq {piece owed : Bytes} (h : piece <+: owed) :
    piece = owed ↔ piece.length = owed.length :=
  ⟨fun heq => by rw [heq], h.eq_of_length⟩

theorem intact_file_iff {r : Response} {file : Bytes} {taken moved : ℕ} {ε : Type}
    {ended : Option ε} (hget : r.method = methodGet)
    (htaken : taken ≤ r.header.length) (hmoved : moved ≤ file.length) :
    Intact r (r.header.take taken ++ file.take moved)
        ((ended.map fun _ => false).map fun broken => !broken && r.keepAlive) ↔
      file.take moved <+: r.header.drop taken ++ r.body ∧
        (r.keepAlive = true →
          ended = none ∨ taken + moved = r.header.length + r.body.length) := by
  rw [intact_iff, Response.owedBody_of_get hget]
  refine and_congr_right fun hfront => imp_congr_right fun _ => ?_
  -- no error of the calls for a file sets `broken_pipe`
  have hended : (ended.map fun _ => false) = some false ↔ ended ≠ none := by
    cases ended <;> simp
  rw [hended, eq_iff_length_eq hfront, List.length_take, List.length_append, List.length_drop,
    ne_eq, ← or_iff_not_imp_left]
  refine or_congr_right ?_
  omega

namespace HttpUtil

/-! ## handle_http -/

/-- How many bytes of the header block the first call takes, or none when it is
refused; a call that would block counts as one that takes nothing. -/
def headerTaken (r : Response) (first : WriteResult) : Option ℕ :=
  match write r.header.length first with
  | .ok taken => some taken
  | .error .again => some 0
  | .error _ => none

/-- How many bytes of the body the calls of `write` take, and what ends them. -/
def bodyWritten (r : Response) (results : List WriteResult) : ℕ × Option (Option Errno) :=
  Transfer.outcome r.body.length (fun total result => write (r.body.length - total) result) 0
    results

/-- How many bytes of the opened file the calls of `sendfile` take, and what ends them. -/
def fileWritten (r : Response) (file : Bytes) (results : List WriteResult) :
    ℕ × Option (Option Errno) :=
  Transfer.outcome r.body.length
    (fun offset result => sendfile (file.length - offset) (r.body.length - offset) result) 0 results

/-- Behind a whole header block: a file holds the bytes of the body, and a keep-alive
connection gets all of them, if `sendfile` comes to an end; a body in memory is not
stopped by anything but EPIPE; and no body is left out. -/
def UnharmedBody (openFile : Bytes → Option Bytes) (r : Response) (results : List WriteResult) :
    Prop :=
  if r.method = methodGet ∧ r.body ≠ [] ∧ r.filePath ≠ [] then
    match openFile r.filePath with
    | none => r.keepAlive = false
    | some file =>
        file.take (fileWritten r file results).1 <+: r.body ∧
          (r.keepAlive = true → (fileWritten r file results).2 = none ∨
            (fileWritten r file results).1 = r.body.length)
  else if r.method = methodGet ∧ r.body ≠ [] then
    r.keepAlive = true → (bodyWritten r results).2 ≠ some (some .again) ∧
      (bodyWritten r results).2 ≠ some (some .other)
  else r.keepAlive = true → r.owedBody = []

/-- Behind a header block cut after `taken` bytes: the connection is not kept, and
what is sent of the body repeats the bytes of the header block that are missing. -/
def UnharmedCut (openFile : Bytes → Option Bytes) (r : Response) (taken : ℕ)
    (results : List WriteResult) : Prop :=
  if r.method = methodGet ∧ r.body ≠ [] ∧ r.filePath ≠ [] then
    match openFile r.filePath with
    | none => r.keepAlive = false
    | some file =>
        file.take (fileWritten r file results).1 <+: r.header.drop taken ++ r.body ∧
          (r.keepAlive = true → (fileWritten r file results).2 = none)
  else if r.method = methodGet ∧ r.body ≠ [] then
    r.body.take (bodyWritten r results).1 <+: r.header.drop taken ++ r.body ∧
      (r.keepAlive = true → (bodyWritten r results).2 = none ∨
        (bodyWritten r results).2 = some (some .epipe))
  else r.keepAlive = false

/-- The condition on the results of the calls that write. -/
def Unharmed (openFile : Bytes → Option Bytes) (r : Response) : List WriteResult → Prop
  | [] => True
  | first :: results =>
      match headerTaken r first with
      | none => True
      | some taken =>
          if taken = r.header.length then UnharmedBody openFile r results
          else UnharmedCut openFile r taken results

theorem safeWrite_headerTaken (r : Response) (first : WriteResult) :
    safeWrite r.header first =
      match headerTaken r first with
      | none => ([], false)
      | some taken => (r.header.take taken, true) := by
  unfold safeWrite headerTaken
  cases write r.header.length first with
  | ok taken => rfl
  | error error => cases error <;> rfl

theorem headerTaken_le {r : Response} {first : WriteResult} {taken : ℕ}
    (h : headerTaken r first = some taken) : taken ≤ r.header.length := by
  unfold headerTaken at h
  split at h
  · rename_i hwrite
    exact Option.some.inj h ▸ write_le hwrite
  · exact Option.some.inj h ▸ Nat.zero_le _
  · exact absurd h (by simp)

/-- The sender of `handle_http` leaves the response intact. -/
def SendsIntact (openFile : Bytes → Option Bytes) (r : Response) (results : List WriteResult) :
    Prop :=
  Intact r (sendHttpResponse openFile r results).wire
    ((sendHttpResponse openFile r results).brokenPipe.map fun broken => !broken && r.keepAlive)

section

variable {openFile : Bytes → Option Bytes} {r : Response} (results : List WriteResult)

theorem sendBody_file {file : Bytes} (hfile : r.method = methodGet ∧ r.body ≠ [] ∧ r.filePath ≠ [])
    (hopen : openFile r.filePath = some file) :
    (sendBody openFile r results).wire = file.take (fileWritten r file results).1 ∧
      (sendBody openFile r results).brokenPipe =
        (fileWritten r file results).2.map fun _ => false := by
  have hout : (sendfileLoop file r.body.length results).out =
      file.take (fileWritten r file results).1 :=
    Transfer.loop_out_outcome (bounded_sendfile file r.body.length) results
  have hended : (sendfileLoop file r.body.length results).ended.map Prod.fst =
      (fileWritten r file results).2 :=
    (Transfer.loop_outcome 0 results).2
  rw [sendBody, if_pos hfile, hopen, ← hended, Option.map_map]
  exact ⟨hout, rfl⟩

theorem sendBody_memory (hfile : ¬ (r.method = methodGet ∧ r.body ≠ [] ∧ r.filePath ≠ []))
    (hmemory : r.method = methodGet ∧ r.body ≠ []) :
    (sendBody openFile r results).wire = r.body.take (bodyWritten r results).1 ∧
      (sendBody openFile r results).brokenPipe =
        (bodyWritten r results).2.map fun error => error == some .epipe := by
  have hout : (writeLoop r.body results).out = r.body.take (bodyWritten r results).1 :=
    Transfer.loop_out_outcome (bounded_write r.body) results
  have hended : (writeLoop r.body results).ended.map Prod.fst = (bodyWritten r results).2 :=
    (Transfer.loop_outcome 0 results).2
  rw [sendBody, if_neg hfile, if_pos hmemory, ← hended, Option.map_map]
  exact ⟨hout, rfl⟩

end

theorem intact_memory_iff {r : Response} {taken moved : ℕ} {ended : Option (Option Errno)}
    (hget : r.method = methodGet) (htaken : taken ≤ r.header.length)
    (hmoved : moved ≤ r.body.length) :
    Intact r (r.header.take taken ++ r.body.take moved)
        ((ended.map fun error => error == some .epipe).map fun broken => !broken && r.keepAlive) ↔
      r.body.take moved <+: r.header.drop taken ++ r.body ∧
        (r.keepAlive = true → ended = none ∨ ended = some (some .epipe) ∨
          taken + moved = r.header.length + r.body.length) := by
  rw [intact_iff, Response.owedBody_of_get hget]
  refine and_congr_right fun hfront => imp_congr_right fun _ => ?_
  have hended : (ended.map fun error => error == some .epipe) = some false ↔
      ¬ (ended = none ∨ ended = some (some .epipe)) := by
    cases ended <;> simp
  rw [hended, eq_iff_length_eq hfront, List.length_take, List.length_append, List.length_drop,
    ← or_iff_not_imp_left, or_assoc]
  refine or_congr_right (or_congr_right ?_)
  omega

theorem fileWritten_le (r : Response) (file : Bytes) (results : List WriteResult) :
    (fileWritten r file results).1 ≤ r.body.length ∧ (fileWritten r file results).1 ≤ file.length :=
  Transfer.outcome_le (bounded_sendfile file r.body.length) results

theorem bodyWritten_le (r : Response) (results : List WriteResult) :
    (bodyWritten r results).1 ≤ r.body.length :=
  (Transfer.outcome_le (bounded_write r.body) results).1

/-- The whole body is taken unless an error stops the calls, or they still go on. -/
theorem bodyWritten_ends_iff (r : Response) (results : List WriteResult) :
    ((bodyWritten r results).2 = none ∨ (bodyWritten r results).2 = some (some .epipe) ∨
        (bodyWritten r results).1 = r.body.length) ↔
      (bodyWritten r results).2 ≠ some (some .again) ∧
        (bodyWritten r results).2 ≠ some (some .other) := by
  have hle := bodyWritten_le r results
  have hstopped : ∀ error, (bodyWritten r results).2 = some (some error) →
      (bodyWritten r results).1 ≠ r.body.length := fun error herror =>
    (Transfer.outcome_lt_goal herror).ne
  cases hended : (bodyWritten r results).2 with
  | none => simp
  | some stopped =>
      cases stopped with
      | none =>
          have hall : (bodyWritten r results).1 = r.body.length :=
            le_antisymm hle (Transfer.goal_le_of_outcome hended)
          simp [hall]
      | some error =>
          have hpart := hstopped error hended
          cases error <;> simp [hpart]

/-- What is sent behind `taken` bytes of the header block leaves the response
intact exactly under the condition. -/
theorem intact_sendBody_iff {openFile : Bytes → Option Bytes} {r : Response} {taken : ℕ}
    (htaken : taken ≤ r.header.length) (results : List WriteResult) :
    Intact r (r.header.take taken ++ (sendBody openFile r results).wire)
        ((sendBody openFile r results).brokenPipe.map fun broken => !broken && r.keepAlive) ↔
      if taken = r.header.length then UnharmedBody openFile r results
      else UnharmedCut openFile r taken results := by
  unfold UnharmedBody UnharmedCut
  by_cases hfile : r.method = methodGet ∧ r.body ≠ [] ∧ r.filePath ≠ []
  · simp only [if_pos hfile]
    cases hopen : openFile r.filePath with
    | none =>
        simp only [sendBody, if_pos hfile, hopen, List.append_nil, Option.map_some, Bool.not_false,
          Bool.true_and, ite_self]
        exact intact_unsent_body_iff hfile.1 hfile.2.1 htaken
    | some file =>
        obtain ⟨hwire, hbroken⟩ := sendBody_file results hfile hopen
        obtain ⟨hbody, hlength⟩ := fileWritten_le r file results
        rw [hwire, hbroken, intact_file_iff hfile.1 htaken hlength]
        by_cases hwhole : taken = r.header.length
        · rw [if_pos hwhole, hwhole, List.drop_length, List.nil_append, Nat.add_left_cancel_iff]
        · rw [if_neg hwhole]
          -- `sendfile` is asked for no more than the body, so the cut is not made up for
          refine and_congr_right' (imp_congr_right fun _ => or_iff_left ?_)
          omega
  · simp only [if_neg hfile]
    by_cases hmemory : r.method = methodGet ∧ r.body ≠ []
    · simp only [if_pos hmemory]
      obtain ⟨hwire, hbroken⟩ := sendBody_memory results hfile hmemory
      have hbody := bodyWritten_le r results
      rw [hwire, hbroken, intact_memory_iff hmemory.1 htaken hbody]
      by_cases hwhole : taken = r.header.length
      · rw [if_pos hwhole, hwhole, List.drop_length, List.nil_append, Nat.add_left_cancel_iff,
          bodyWritten_ends_iff]
        exact and_iff_right (List.take_prefix _ _)
      · rw [if_neg hwhole]
        refine and_congr_right' (imp_congr_right fun _ => or_congr_right (or_iff_left ?_))
        omega
    · simp only [sendBody, if_neg hfile, if_neg hmemory, List.append_nil, Option.map_some,
        Bool.not_false, Bool.true_and]
      exact intact_nothing_iff htaken

/-- The sender leaves the response intact exactly under the condition. -/
theorem sendsIntact_iff (openFile : Bytes → Option Bytes) (r : Response)
    (results : List WriteResult) :
    SendsIntact openFile r results ↔ Unharmed openFile r results := by
  cases results with
  | nil => simp [SendsIntact, sendHttpResponse, Intact, Unharmed]
  | cons first results =>
      simp only [SendsIntact, sendHttpResponse, Unharmed, safeWrite_headerTaken]
      cases htaken : headerTaken r first with
      | none => simp [Intact]
      | some taken =>
          have hle := headerTaken_le htaken
          simp only [if_true]
          exact intact_sendBody_iff hle results

end HttpUtil

namespace HttpsUtil

/-! ## handle_https -/

/-- How many bytes of a buffer one call takes, or none when it is refused; a call
that would block counts as one that takes nothing. -/
def callTaken (buf : Bytes) (result : SslWriteResult) : Option ℕ :=
  match sslWrite (toInt buf.length) result with
  | .ok taken => some taken
  | .error .want => some 0
  | .error _ => none

/-- How many bytes of the mapped file the calls take, and what ends them. -/
def fileWritten (file : Bytes) (results : List SslWriteResult) : ℕ × Option (Option SslError) :=
  Transfer.outcome file.length (fun total result => sslWrite (toInt (file.length - total)) result) 0
    results

/-- Behind a whole header block: a file holds the bytes of the body, and a keep-alive
connection gets as many of them as the body has, if the calls come to an end; a body
in memory is taken whole or refused; and no body is left out. -/
def UnharmedBody (openFile : Bytes → Option Bytes) (r : Response)
    (results : List SslWriteResult) : Prop :=
  if r.method = methodGet ∧ r.body ≠ [] ∧ r.filePath ≠ [] then
    match openFile r.filePath with
    | none => r.keepAlive = false
    | some file =>
        file.take (fileWritten file results).1 <+: r.body ∧
          (r.keepAlive = true → (fileWritten file results).2 = none ∨
            (fileWritten file results).1 = r.body.length)
  else if r.method = methodGet ∧ r.body ≠ [] then
    r.keepAlive = true → ∀ result ∈ results.head?, ∀ taken ∈ callTaken r.body result,
      taken = r.body.length
  else r.keepAlive = true → r.owedBody = []

/-- Behind a header block cut after `cut` bytes: what is sent of the body repeats the
bytes of the header block that are missing, and the connection is not kept, unless a
file has all of them and the body. -/
def UnharmedCut (openFile : Bytes → Option Bytes) (r : Response) (cut : ℕ)
    (results : List SslWriteResult) : Prop :=
  if r.method = methodGet ∧ r.body ≠ [] ∧ r.filePath ≠ [] then
    match openFile r.filePath with
    | none => r.keepAlive = false
    | some file =>
        file.take (fileWritten file results).1 <+: r.header.drop cut ++ r.body ∧
          (r.keepAlive = true → (fileWritten file results).2 = none ∨
            cut + (fileWritten file results).1 = r.header.length + r.body.length)
  else if r.method = methodGet ∧ r.body ≠ [] then
    ∀ result ∈ results.head?, ∀ taken ∈ callTaken r.body result,
      r.body.take taken <+: r.header.drop cut ++ r.body ∧ r.keepAlive = false
  else r.keepAlive = false

/-- The condition on the results of the calls that write. -/
def Unharmed (openFile : Bytes → Option Bytes) (r : Response) : List SslWriteResult → Prop
  | [] => True
  | first :: results =>
      match callTaken r.header first with
      | none => True
      | some taken =>
          if taken = r.header.length then UnharmedBody openFile r results
          else UnharmedCut openFile r taken results

theorem safeSslWrite_callTaken (buf : Bytes) (result : SslWriteResult) :
    safeSslWrite buf result =
      match callTaken buf result with
      | none => ([], false)
      | some taken => (buf.take taken, true) := by
  unfold safeSslWrite callTaken
  cases sslWrite (toInt buf.length) result with
  | ok taken => rfl
  | error error => cases error <;> rfl

theorem callTaken_le {buf : Bytes} {result : SslWriteResult} {taken : ℕ}
    (h : callTaken buf result = some taken) : taken ≤ buf.length := by
  unfold callTaken at h
  split at h
  · rename_i hwrite
    exact Option.some.inj h ▸ sslWrite_le hwrite
  · exact Option.some.inj h ▸ Nat.zero_le _
  · exact absurd h (by simp)

theorem fileWritten_le (file : Bytes) (results : List SslWriteResult) :
    (fileWritten file results).1 ≤ file.length :=
  (Transfer.outcome_le (bounded_mmap file) results).2

theorem sendBody_file {openFile : Bytes → Option Bytes} {r : Response} {file : Bytes}
    (results : List SslWriteResult) (hfile : r.method = methodGet ∧ r.body ≠ [] ∧ r.filePath ≠ [])
    (hopen : openFile r.filePath = some file) :
    (sendBody openFile r results).wire = file.take (fileWritten file results).1 ∧
      (sendBody openFile r results).brokenPipe =
        (fileWritten file results).2.map fun _ => false := by
  have hout : (mmapLoop file results).out = file.take (fileWritten file results).1 :=
    Transfer.loop_out_outcome (bounded_mmap file) results
  have hended : (mmapLoop file results).ended.map Prod.fst = (fileWritten file results).2 :=
    (Transfer.loop_outcome 0 results).2
  unfold sendBody
  rw [if_pos hfile, hopen, ← hended, Option.map_map]
  exact ⟨hout, rfl⟩

theorem intact_memory_iff {r : Response} {cut taken : ℕ} (hget : r.method = methodGet)
    (hcut : cut ≤ r.header.length) (htaken : taken ≤ r.body.length) :
    Intact r (r.header.take cut ++ r.body.take taken) (some r.keepAlive) ↔
      r.body.take taken <+: r.header.drop cut ++ r.body ∧
        (r.keepAlive = true → cut + taken = r.header.length + r.body.length) := by
  have hintact := intact_iff (r := r) cut (r.body.take taken) (some false)
  simp only [Option.map_some, Bool.not_false, Bool.true_and, forall_true_left] at hintact
  rw [hintact, Response.owedBody_of_get hget]
  refine and_congr_right fun hfront => imp_congr_right fun _ => ?_
  rw [eq_iff_length_eq hfront, List.length_take, List.length_append, List.length_drop]
  omega

/-- What is sent behind `cut` bytes of the header block leaves the response intact
exactly under the condition. -/
theorem intact_sendBody_iff {openFile : Bytes → Option Bytes} {r : Response} {cut : ℕ}
    (hcut : cut ≤ r.header.length) (results : List SslWriteResult) :
    Intact r (r.header.take cut ++ (sendBody openFile r results).wire)
        ((sendBody openFile r results).brokenPipe.map fun broken => !broken && r.keepAlive) ↔
      if cut = r.header.length then UnharmedBody openFile r results
      else UnharmedCut openFile r cut results := by
  unfold UnharmedBody UnharmedCut
  by_cases hfile : r.method = methodGet ∧ r.body ≠ [] ∧ r.filePath ≠ []
  · simp only [if_pos hfile]
    cases hopen : openFile r.filePath with
    | none =>
        simp only [sendBody, if_pos hfile, hopen, List.append_nil, Option.map_some, Bool.not_false,
          Bool.true_and, ite_self]
        exact intact_unsent_body_iff hfile.1 hfile.2.1 hcut
    | some file =>
        obtain ⟨hwire, hbroken⟩ := sendBody_file results hfile hopen
        rw [hwire, hbroken, intact_file_iff hfile.1 hcut (fileWritten_le file results)]
        by_cases hwhole : cut = r.header.length
        · rw [if_pos hwhole, hwhole, List.drop_length, List.nil_append, Nat.add_left_cancel_iff]
        · rw [if_neg hwhole]
  · simp only [if_neg hfile]
    by_cases hmemory : r.method = methodGet ∧ r.body ≠ []
    · simp only [if_pos hmemory]
      cases results with
      | nil =>
          simp only [sendBody, if_neg hfile, if_pos hmemory, List.append_nil, Option.map_none]
          simp [intact_of_not_kept]
      | cons result results =>
          simp only [sendBody, if_neg hfile, if_pos hmemory, safeSslWrite_callTaken,
            List.head?_cons, Option.mem_some_iff, forall_eq']
          cases hcall : callTaken r.body result with
          | none =>
              simp [intact_of_not_kept]
          | some taken =>
              have hbody := callTaken_le hcall
              simp only [Option.mem_some_iff, forall_eq', Option.map_some, Bool.not_true,
                Bool.not_false, Bool.true_and]
              rw [intact_memory_iff hmemory.1 hcut hbody]
              by_cases hwhole : cut = r.header.length
              · rw [if_pos hwhole, hwhole, List.drop_length, List.nil_append,
                  Nat.add_left_cancel_iff]
                exact and_iff_right (List.take_prefix _ _)
              · rw [if_neg hwhole, ← Bool.not_eq_true]
                refine and_congr_right' (imp_congr_right fun _ => iff_of_false ?_ id)
                have hpos := List.length_pos_of_ne_nil hmemory.2
                omega
    · simp only [sendBody, if_neg hfile, if_neg hmemory, List.append_nil, Option.map_some,
        Bool.not_false, Bool.true_and]
      exact intact_nothing_iff hcut

/-- The sender of `handle_https` leaves the response intact. -/
def SendsIntact (openFile : Bytes → Option Bytes) (r : Response)
    (results : List SslWriteResult) : Prop :=
  Intact r (sendHttpsResponse openFile r results).wire
    ((sendHttpsResponse openFile r results).brokenPipe.map fun broken => !broken && r.keepAlive)

/-- The sender leaves the response intact exactly under the condition. -/
theorem sendsIntact_iff (openFile : Bytes → Option Bytes) (r : Response)
    (results : List SslWriteResult) :
    SendsIntact openFile r results ↔ Unharmed openFile r results := by
  cases results with
  | nil => simp [SendsIntact, sendHttpsResponse, Intact, Unharmed]
  | cons first results =>
      simp only [SendsIntact, sendHttpsResponse, Unharmed, safeSslWrite_callTaken]
      cases htaken : callTaken r.header first with
      | none => simp [Intact]
      | some taken =>
          simp only [if_true]
          exact intact_sendBody_iff (callTaken_le htaken) results

end HttpsUtil

/-! ## The handlers -/

/-- The response of a run is intact on the connection. -/
def RunIntact {ε : Type} (run : HandlerRun ε) : Prop :=
  ∀ r ∈ run.response, Intact r run.wire run.returned

theorem handleHttp_intact_iff (env : Env) (site : SiteInfo) (recvs : List RecvResult)
    (writes : List WriteResult) :
    RunIntact (HttpUtil.handleHttp env site recvs writes) ↔
      (HttpUtil.Answers recvs →
        ∀ r ∈ (HttpUtil.answer env site (HttpUtil.received recvs)).response,
          HttpUtil.Unharmed env.openFile r writes) := by
  by_cases hanswers : HttpUtil.Answers recvs
  · obtain ⟨r, hr⟩ := HttpUtil.exists_response env site (HttpUtil.received recvs)
    rw [HttpUtil.handleHttp_answers env site writes hanswers hr, RunIntact, hr]
    simp only [hanswers, true_imp_iff, Option.mem_some_iff, forall_eq']
    exact HttpUtil.sendsIntact_iff env.openFile r writes
  · rw [HttpUtil.handleHttp_silent env site writes hanswers]
    simp [RunIntact, hanswers]

theorem handleHttps_intact_iff (env : Env) (site : SiteInfo) (hasEntry : Bool)
    (results : HttpsUtil.TlsResults) :
    RunIntact (HttpsUtil.handleHttps env site hasEntry results).run ↔
      (HttpsUtil.Answers hasEntry results →
        ∀ r ∈ (HttpsUtil.answer env site (HttpsUtil.received results)).response,
          HttpsUtil.Unharmed env.openFile r results.writes) := by
  by_cases hanswers : HttpsUtil.Answers hasEntry results
  · rw [HttpsUtil.handleHttps_answers env site hanswers]
    cases hr : (HttpsUtil.answer env site (HttpsUtil.received results)).response with
    | none => simp [RunIntact]
    | some r =>
        simp only [RunIntact, hanswers, true_imp_iff, Option.mem_some_iff, forall_eq']
        exact HttpsUtil.sendsIntact_iff env.openFile r results.writes
  · obtain ⟨returned, unread, hsilent⟩ := HttpsUtil.handleHttps_silent env site hanswers
    simp [hsilent, RunIntact, hanswers, HttpsUtil.silent]

/-- **Wire integrity.**  A run leaves its response intact exactly when the results
of the calls that write do no harm. -/
theorem wire_integrity_iff (env : Env) (site : SiteInfo) :
    (∀ recvs writes, RunIntact (HttpUtil.handleHttp env site recvs writes) ↔
      (HttpUtil.Answers recvs →
        ∀ r ∈ (HttpUtil.answer env site (HttpUtil.received recvs)).response,
          HttpUtil.Unharmed env.openFile r writes)) ∧
    (∀ hasEntry results, RunIntact (HttpsUtil.handleHttps env site hasEntry results).run ↔
      (HttpsUtil.Answers hasEntry results →
        ∀ r ∈ (HttpsUtil.answer env site (HttpsUtil.received results)).response,
          HttpsUtil.Unharmed env.openFile r results.writes)) :=
  ⟨handleHttp_intact_iff env site, handleHttps_intact_iff env site⟩

/-- The page, with the connection kept. -/
def keptGet : List RecvResult :=
  [.data ⟨ascii "GET / HTTP/1.1\r\nConnection: keep-alive\r\n\r\n", by decide, by decide⟩]

/-- The header block would block and is dropped; the page goes out without it and
the connection is kept. -/
theorem page_without_header :
    ¬ ∀ (env : Env) (site : SiteInfo) (recvs : List RecvResult) (writes : List WriteResult),
      RunIntact (HttpUtil.handleHttp env site recvs writes) := by
  intro h
  have hresponse : (HttpUtil.handleHttp pages shop keptGet [.fail .again, .full]).response =
      some (.file http11 (ascii "text/html; charset=utf-8") (ascii "hello") true methodGet
        (ascii "/srv/index.html")) := by
    decide +kernel
  have hfront := (h pages shop keptGet [.fail .again, .full] _ hresponse).1
  exact absurd hfront (by decide +kernel)

end Sok
