import Sok.Foundation.Pieces
import Sok.Http.Send

/-!
# The body loops with their machine integers

The two loops of `send_http_response` as the machine runs them: `total` and `remain`
are of type `size_t`, `offset` of type `off_t`, and a call returns an `ssize_t`, which
is converted to `size_t` where it is added or subtracted.  The loops keep different
books, but both are `Transfer.moving` seen through what they have put out, and that
gives the prefix, the end and the whole body at once.

## Strategy

The loops of the source count in machine words, those of `Transfer` in natural numbers.
The invariant `Counted` ties them together: the total is the length of what has been put
out, which is a prefix of the body, so neither a sum nor a difference wraps.  Each loop of
the source then runs as its transfer does (`Counted.loop_of_runs`), and all that is said of
the loops is said of transfers once.
-/

namespace Sok

open Transition (System)

/-! ## Words -/

/-- The bytes of a string or of a file: their number is an `off_t`. -/
structure Contents where
  bytes : Bytes
  fits : bytes.length < 0x8000000000000000

namespace Contents

/-- `size()`. -/
def size (contents : Contents) : UInt64 :=
  UInt64.ofNat contents.bytes.length

@[simp] theorem toNat_size (contents : Contents) :
    contents.size.toNat = contents.bytes.length := by
  apply UInt64.toNat_ofNat_of_lt'
  have hfits := contents.fits
  rw [UInt64.size]
  omega

end Contents

/-- What a positive `ssize_t` adds to a `size_t` is itself. -/
theorem toNat_toUInt64_of_pos {ret : Int64} (h : 0 < ret) :
    ret.toUInt64.toNat = ret.toNatClampNeg ∧ 0 < ret.toNatClampNeg :=
  ⟨Int64.toNat_toUInt64_of_le (Int64.le_of_lt h), (Int64.toNatClampNeg_pos_iff ret).mpr h⟩

/-- A sum of `size_t` that does not exceed another one does not wrap. -/
theorem toNat_add_of_le {a b : UInt64} (size : UInt64) (h : a.toNat + b.toNat ≤ size.toNat) :
    (a + b).toNat = a.toNat + b.toNat := by
  have hsize := size.toNat_lt
  rw [UInt64.toNat_add, Nat.mod_eq_of_lt (by omega)]

theorem toInt_add_of_lt {a b : Int64} (ha : 0 ≤ a.toInt) (hb : 0 ≤ b.toInt)
    (h : a.toInt + b.toInt < 0x8000000000000000) : (a + b).toInt = a.toInt + b.toInt := by
  rw [Int64.toInt_add]
  exact Int.bmod_eq_of_le (by omega) (by omega)

/-- A total that counts a prefix of the body counts it with the next piece as well. -/
theorem total_add_piece {body : Contents} {out : Bytes} {total moved : UInt64} {count : ℕ}
    (htotal : total.toNat = out.length) (hfront : out <+: body.bytes)
    (hmoved : moved.toNat = count) (hle : out.length + count ≤ body.bytes.length) :
    (total + moved).toNat = (out ++ (body.bytes.drop total.toNat).take count).length ∧
      out ++ (body.bytes.drop total.toNat).take count <+: body.bytes := by
  rw [htotal]
  refine ⟨?_, ?_⟩
  · rw [Transfer.length_append_piece hle, toNat_add_of_le body.size, htotal, hmoved]
    rw [htotal, hmoved, Contents.toNat_size]
    exact hle
  · rw [Transfer.append_piece hfront]
    exact List.take_prefix _ _

/-- A loop that was not left, with a total below the size, is a running transfer. -/
theorem total_lt_iff {ε : Type} {body : Contents} {out : Bytes} {total : UInt64}
    {failed : Option ε} (htotal : total.toNat = out.length) :
    failed = none ∧ total < body.size ↔
      Transfer.Moving.Running body.bytes ⟨out, failed.isSome⟩ := by
  rw [Transfer.Moving.Running, UInt64.lt_iff_toNat_lt, htotal, Contents.toNat_size,
    Option.isSome_eq_false_iff, Option.isNone_iff_eq_none]

/-! ## Loops that send a body in pieces -/

/-- A loop with one call in each pass. -/
structure BodyLoop (σ R : Type) where
  start : σ
  /-- One pass, with the result of its call. -/
  step : σ → R → Option σ
  /-- The loop goes on with another pass. -/
  Running : σ → Prop
  /-- What the call of the next pass can return. -/
  Accepts : σ → R → Prop
  /-- What has been put out, and whether the loop was left from inside. -/
  view : σ → Transfer.Moving UInt8
  /-- What a result says: how many bytes were taken, or that the loop is left. -/
  taken : R → Option ℕ

namespace BodyLoop

variable {σ R : Type}

def system (L : BodyLoop σ R) : System σ R where
  init state := state = L.start
  step := L.step

/-- What the loop does on a list of results. -/
def Runs (L : BodyLoop σ R) (results : List R) (final : σ) : Prop :=
  L.system.Run L.Accepts L.start results final

/-- The loop sends the body: whatever the calls return, what is put out is a prefix, every state
has the property `Counts`, the loop ends, and behind calls none of which leaves the loop the whole
body has been put out. -/
structure Exact (L : BodyLoop σ R) (body : Contents) (Counts : σ → Prop) : Prop where
  prefix_out : ∀ results final, L.Runs results final →
    (L.view final).out <+: body.bytes ∧ Counts final
  ends : ∀ results : ℕ → R,
    (∀ n middle, L.Runs ((List.range n).map results) middle → L.Running middle →
      L.Accepts middle (results n)) →
    ∃ n ≤ body.bytes.length + 1, ∃ final, L.Runs ((List.range n).map results) final ∧
      ¬ L.Running final
  whole : ∀ results final, L.Runs results final → ¬ L.Running final →
    (∀ result ∈ results, L.taken result ≠ none) → (L.view final).out = body.bytes

/-- What makes a loop a transfer of the body: the books are right at the start and behind every
pass, and right books show when the transfer is running. -/
structure Counted (L : BodyLoop σ R) (body : Contents) (Books : σ → Prop) : Prop where
  start_books : Books L.start
  start_view : L.view L.start = ⟨[], false⟩
  step : Transfer.Implements L.system L.Accepts Books L.view L.taken body.bytes
  running : ∀ state, Books state → (L.Running state ↔ (L.view state).Running body.bytes)
  passes : ∀ state result, L.Running state → ∃ next, L.step state result = some next

variable {L : BodyLoop σ R} {body : Contents} {Books : σ → Prop}

/-- The books stay right, and the loop does what a transfer does. -/
theorem Counted.runs (h : L.Counted body Books) {results : List R} {final : σ}
    (hruns : L.Runs results final) :
    Books final ∧ (Transfer.moving body.bytes).Run (Transfer.Moves body.bytes) ⟨[], false⟩
      (results.map L.taken) (L.view final) := by
  rw [← h.start_view]
  exact System.Run.simulates h.step h.start_books hruns

theorem Counted.exact (h : L.Counted body Books) {Counts : σ → Prop}
    (hcounts : ∀ state, Books state → Counts state) : L.Exact body Counts where
  prefix_out results final hruns := by
    obtain ⟨hbooks, hrun⟩ := h.runs hruns
    exact ⟨Transfer.prefix_out hrun List.nil_prefix, hcounts final hbooks⟩
  ends results haccepts := by
    refine System.exists_not_running h.passes ?_ results haccepts
    intro labels final hruns
    have hlength := Transfer.length_le_of_run (h.runs hruns).2
    rwa [List.length_map] at hlength
  whole results final hruns hend htaken := by
    obtain ⟨hbooks, hrun⟩ := h.runs hruns
    rw [h.running final hbooks] at hend
    refine Transfer.out_eq_of_not_running hrun hend fun hnone => ?_
    obtain ⟨result, hmem, hresult⟩ := List.mem_map.mp hnone
    exact htaken result hmem hresult

/-- `Transfer.loop`, with calls that do what the results say, does the same on numbers. -/
theorem Counted.loop_of_runs {ε R' : Type} (h : L.Counted body Books)
    (call : ℕ → R' → Except ε ℕ) (outcome : R → R')
    (hcall : ∀ state result, Books state → L.Accepts state result →
      Transfer.Moves body.bytes (L.view state) (L.taken result) →
      Transfer.Agrees (L.taken result) (call (L.view state).out.length (outcome result)))
    {results : List R} {final : σ} (hruns : L.Runs results final) :
    (Transfer.loop body.bytes body.bytes.length call 0 (results.map outcome)).out =
        (L.view final).out ∧
      (Transfer.loop body.bytes body.bytes.length call 0 (results.map outcome)).total =
        (L.view final).out.length ∧
      ((Transfer.loop body.bytes body.bytes.length call 0 (results.map outcome)).ended.isSome ↔
        ¬ L.Running final) := by
  have hstart := h.start_view
  have hloop := h.step.loop_of_run call outcome hcall h.start_books hruns (by rw [hstart])
  rw [hstart] at hloop
  rw [h.running final (h.runs hruns).1]
  exact hloop

end BodyLoop

/-! ## The loops of `send_http_response` -/

/-- What `write` and `sendfile` return, and `errno` behind them. -/
structure Returned where
  ret : Int64
  errno : Errno
  deriving DecidableEq

namespace Returned

/-- Between 1 and the requested number of bytes, or -1. -/
def Within (count : UInt64) (result : Returned) : Prop :=
  result.ret = -1 ∨ (0 < result.ret ∧ result.ret.toUInt64 ≤ count)

/-- The loops are left on -1. -/
def taken (result : Returned) : Option ℕ :=
  if result.ret = -1 then none else some result.ret.toNatClampNeg

/-- The outcome as the handlers tell results apart. -/
def outcome (result : Returned) : WriteResult :=
  if result.ret = -1 then .fail result.errno else .short result.ret.toNatClampNeg

end Returned

namespace HttpUtil

/-- The loop with `write` between two passes. -/
structure Writing where
  total : UInt64
  out : Bytes
  /-- `errno` of the call that returned -1. -/
  failed : Option Errno

/-- `while (total < body.size())`. -/
def Writing.Running (body : Contents) (s : Writing) : Prop :=
  s.failed = none ∧ s.total < body.size

instance (body : Contents) (s : Writing) : Decidable (s.Running body) :=
  inferInstanceAs (Decidable (_ ∧ _))

/-- `ret = write(client_fd, body.data() + total, body.size() - total)`, with `return` on -1 and
`total += ret` otherwise. -/
def writing (body : Contents) : BodyLoop Writing Returned where
  start := ⟨0, [], none⟩
  step s result :=
    if s.Running body then
      some <|
        if result.ret = -1 then { s with failed := some result.errno }
        else
          { s with
            total := s.total + result.ret.toUInt64
            out := s.out ++ (body.bytes.drop s.total.toNat).take result.ret.toNatClampNeg }
    else none
  Running := Writing.Running body
  Accepts s := Returned.Within (body.size - s.total)
  view s := ⟨s.out, s.failed.isSome⟩
  taken := Returned.taken

/-- The loop with `sendfile` between two passes. -/
structure Sending where
  offset : Int64
  remain : UInt64
  out : Bytes
  /-- `errno` of the call that returned -1. -/
  failed : Option Errno

/-- `while (remain > 0)`. -/
def Sending.Running (s : Sending) : Prop :=
  s.failed = none ∧ 0 < s.remain

instance (s : Sending) : Decidable s.Running :=
  inferInstanceAs (Decidable (_ ∧ _))

/-- `sent = sendfile(client_fd, fd, &offset, remain)`, which moves the offset behind the bytes it
has taken from the file, with `return` or `break` on -1 and `remain -= sent` otherwise. -/
def sending (file : Contents) (size : UInt64) : BodyLoop Sending Returned where
  start := ⟨0, size, [], none⟩
  step s result :=
    if s.Running then
      some <|
        if result.ret = -1 then { s with failed := some result.errno }
        else
          { s with
            offset := s.offset + result.ret
            remain := s.remain - result.ret.toUInt64
            out := s.out ++
              (file.bytes.drop s.offset.toNatClampNeg).take result.ret.toNatClampNeg }
    else none
  Running := Sending.Running
  Accepts s := Returned.Within s.remain
  view s := ⟨s.out, s.failed.isSome⟩
  taken := Returned.taken

/-! ## Their books -/

/-- `total` counts what has been put out. -/
def Writing.Books (body : Contents) (s : Writing) : Prop :=
  s.total.toNat = s.out.length ∧ s.out <+: body.bytes

/-- `offset` counts what has been put out, and `remain` what is left. -/
def Sending.Books (body : Contents) (s : Sending) : Prop :=
  s.offset.toInt = s.out.length ∧ s.offset.toInt + s.remain.toNat = body.bytes.length ∧
    s.out <+: body.bytes

/-- A call that does not fail takes something, and no more than there is left. -/
theorem le_of_within {result : Returned} {count : UInt64} (hwithin : result.Within count)
    (hret : result.ret ≠ -1) {sent size : ℕ} (hcount : sent + count.toNat ≤ size) :
    sent + result.ret.toNatClampNeg ≤ size := by
  obtain ⟨hpos, hle⟩ := hwithin.resolve_left hret
  obtain ⟨hnat, -⟩ := toNat_toUInt64_of_pos hpos
  rw [UInt64.le_iff_toNat_le, hnat] at hle
  omega

theorem taken_of_fail {result : Returned} (h : result.ret = -1) : result.taken = none :=
  if_pos h

theorem taken_of_ne {result : Returned} (h : result.ret ≠ -1) :
    result.taken = some result.ret.toNatClampNeg :=
  if_neg h

theorem running_writing {body : Contents} {s : Writing} (h : s.Books body) :
    s.Running body ↔ Transfer.Moving.Running body.bytes ⟨s.out, s.failed.isSome⟩ :=
  total_lt_iff h.1

theorem counted_writing (body : Contents) : (writing body).Counted body (Writing.Books body) where
  start_books := ⟨rfl, List.nil_prefix⟩
  start_view := rfl
  running _ h := running_writing h
  passes state result hrunning := ⟨_, if_pos hrunning⟩
  step state result next hbooks haccepts hstep := by
    obtain ⟨hrunning, hnext⟩ := Option.ite_none_right_eq_some.mp hstep
    obtain rfl := Option.some.inj hnext
    have hmoving := (running_writing hbooks).mp hrunning
    show _ ∧ Transfer.Moves body.bytes _ result.taken ∧
      (Transfer.moving body.bytes).step _ result.taken = _
    by_cases hret : result.ret = -1
    · rw [if_pos hret, taken_of_fail hret]
      exact ⟨hbooks, Transfer.moves_none, Transfer.moving_stop hmoving⟩
    · have hlt : state.out.length < body.bytes.length := hmoving.2
      have hleft : (body.size - state.total).toNat = body.bytes.length - state.out.length := by
        rw [UInt64.toNat_sub_of_le _ _ (UInt64.le_of_lt hrunning.2), Contents.toNat_size,
          hbooks.1]
      have hcall : state.out.length + (body.size - state.total).toNat ≤ body.bytes.length := by
        omega
      have hle := le_of_within haccepts hret hcall
      obtain ⟨hcount, hpos⟩ := toNat_toUInt64_of_pos (haccepts.resolve_left hret).1
      rw [if_neg hret, taken_of_ne hret]
      refine ⟨total_add_piece hbooks.1 hbooks.2 hcount hle, Transfer.moves_some hpos hle, ?_⟩
      rw [hbooks.1]
      exact Transfer.moving_some hmoving _

theorem running_sending {body : Contents} {s : Sending} (h : s.Books body) :
    s.Running ↔ Transfer.Moving.Running body.bytes ⟨s.out, s.failed.isSome⟩ := by
  have hremain : 0 < s.remain ↔ s.out.length < body.bytes.length := by
    obtain ⟨hoffset, hsum, -⟩ := h
    rw [UInt64.lt_iff_toNat_lt, UInt64.toNat_zero]
    omega
  rw [Sending.Running, Transfer.Moving.Running, hremain, Option.isSome_eq_false_iff,
    Option.isNone_iff_eq_none]

theorem counted_sending (body : Contents) :
    (sending body body.size).Counted body (Sending.Books body) where
  start_books := ⟨rfl, by simp [sending], List.nil_prefix⟩
  start_view := rfl
  running _ h := running_sending h
  passes state result hrunning := ⟨_, if_pos hrunning⟩
  step state result next hbooks haccepts hstep := by
    obtain ⟨hrunning, hnext⟩ := Option.ite_none_right_eq_some.mp hstep
    obtain rfl := Option.some.inj hnext
    have hmoving := (running_sending hbooks).mp hrunning
    obtain ⟨hoffset, hsum, hfront⟩ := hbooks
    show _ ∧ Transfer.Moves body.bytes _ result.taken ∧
      (Transfer.moving body.bytes).step _ result.taken = _
    by_cases hret : result.ret = -1
    · rw [if_pos hret, taken_of_fail hret]
      exact ⟨⟨hoffset, hsum, hfront⟩, Transfer.moves_none, Transfer.moving_stop hmoving⟩
    · have hcall : state.out.length + state.remain.toNat ≤ body.bytes.length := by omega
      have hle := le_of_within haccepts hret hcall
      obtain ⟨hpos, hwithin⟩ := haccepts.resolve_left hret
      obtain ⟨hcount, hcountpos⟩ := toNat_toUInt64_of_pos hpos
      have hclamp : state.offset.toNatClampNeg = state.out.length := by
        rw [← Int64.toNat_toInt, hoffset, Int.toNat_natCast]
      have hret' : (result.ret.toNatClampNeg : ℤ) = result.ret.toInt :=
        Int64.cast_toNatClampNeg _ (Int64.le_of_lt hpos)
      have hadd : (state.offset + result.ret).toInt =
          state.out.length + result.ret.toNatClampNeg := by
        have hfits := body.fits
        rw [toInt_add_of_lt (by omega) (by omega) (by omega), hoffset, hret']
      have hsub : (state.remain - result.ret.toUInt64).toNat =
          state.remain.toNat - result.ret.toNatClampNeg := by
        rw [UInt64.toNat_sub_of_le _ _ hwithin, hcount]
      rw [if_neg hret, taken_of_ne hret]
      refine ⟨⟨?_, ?_, ?_⟩, Transfer.moves_some hcountpos hle, ?_⟩
      · rw [hadd, hclamp, Transfer.length_append_piece hle]
        exact (Nat.cast_add _ _).symm
      · rw [hadd, hsub]
        omega
      · rw [hclamp, Transfer.append_piece hfront]
        exact List.take_prefix _ _
      · rw [hclamp]
        exact Transfer.moving_some hmoving _

/-! ## The loops on numbers -/

/-- What an outcome makes of a transfer is what the result makes of it. -/
theorem write_outcome {result : Returned} {count : ℕ}
    (hcount : ∀ moved ∈ result.taken, moved ≤ count) :
    Transfer.Agrees result.taken (write count result.outcome) := by
  by_cases hret : result.ret = -1
  · rw [taken_of_fail hret, Returned.outcome, if_pos hret]
    exact ⟨result.errno, rfl⟩
  · rw [taken_of_ne hret, Returned.outcome, if_neg hret]
    show Except.ok (min _ count) = _
    rw [min_eq_left (hcount _ (taken_of_ne hret))]

/-- `writeLoop` does on numbers what the loop does on words. -/
theorem writeLoop_of_runs {body : Contents} {results : List Returned} {final : Writing}
    (h : (writing body).Runs results final) :
    (writeLoop body.bytes (results.map Returned.outcome)).out = final.out ∧
      (writeLoop body.bytes (results.map Returned.outcome)).total = final.total.toNat ∧
      ((writeLoop body.bytes (results.map Returned.outcome)).ended.isSome ↔
        ¬ final.Running body) := by
  rw [((counted_writing body).runs h).1.1]
  refine (counted_writing body).loop_of_runs
    (fun total result => write (body.bytes.length - total) result) Returned.outcome
    (fun state result _ _ hmoves => write_outcome fun moved hmoved => ?_) h
  have hle := (hmoves moved hmoved).2
  omega

/-- And so does `sendfileLoop`, on a file that is still the body. -/
theorem sendfileLoop_of_runs {body : Contents} {results : List Returned} {final : Sending}
    (h : (sending body body.size).Runs results final) :
    (sendfileLoop body.bytes body.bytes.length (results.map Returned.outcome)).out = final.out ∧
      ((sendfileLoop body.bytes body.bytes.length (results.map Returned.outcome)).total : ℤ) =
        final.offset.toInt ∧
      ((sendfileLoop body.bytes body.bytes.length (results.map Returned.outcome)).ended.isSome ↔
        ¬ final.Running) := by
  rw [((counted_sending body).runs h).1.1, Nat.cast_inj]
  refine (counted_sending body).loop_of_runs
    (fun offset result =>
      sendfile (body.bytes.length - offset) (body.bytes.length - offset) result)
    Returned.outcome (fun state result _ _ hmoves => write_outcome fun moved hmoved => ?_) h
  have hle := (hmoves moved hmoved).2
  rw [Nat.min_self]
  omega

/-! ## Every pattern of short transfers -/

/-- The running total is within the body, and says how much of it has been put out. -/
def Writing.Counts (body : Contents) (s : Writing) : Prop :=
  s.total ≤ body.size ∧ s.out = body.bytes.take s.total.toNat

/-- The offset says how much of the body has been put out, and the remainder is what is left; no
call makes it wrap. -/
def Sending.Counts (body : Contents) (s : Sending) : Prop :=
  0 ≤ s.offset.toInt ∧ s.offset.toInt + s.remain.toNat = body.bytes.length ∧
    s.out = body.bytes.take s.offset.toNatClampNeg ∧
    ∀ result next, (sending body body.size).Accepts s result →
      (sending body body.size).step s result = some next → next.remain ≤ s.remain

theorem Writing.Books.counts {body : Contents} {s : Writing} (h : s.Books body) :
    s.Counts body := by
  obtain ⟨htotal, hfront⟩ := h
  refine ⟨?_, ?_⟩
  · rw [UInt64.le_iff_toNat_le, htotal, Contents.toNat_size]
    exact hfront.length_le
  · rw [htotal]
    exact List.prefix_iff_eq_take.mp hfront

theorem Sending.Books.counts {body : Contents} {s : Sending} (h : s.Books body) :
    s.Counts body := by
  obtain ⟨hoffset, hsum, hfront⟩ := h
  refine ⟨by omega, hsum, ?_, fun result next haccepts hstep => ?_⟩
  · rw [← Int64.toNat_toInt, hoffset, Int.toNat_natCast]
    exact List.prefix_iff_eq_take.mp hfront
  · obtain ⟨-, hnext⟩ := Option.ite_none_right_eq_some.mp hstep
    obtain rfl := Option.some.inj hnext
    by_cases hret : result.ret = -1
    · rw [if_pos hret]
      exact UInt64.le_refl _
    · rw [if_neg hret]
      have hwithin := (haccepts.resolve_left hret).2
      rw [UInt64.le_iff_toNat_le]
      show (s.remain - result.ret.toUInt64).toNat ≤ _
      rw [UInt64.toNat_sub_of_le _ _ hwithin]
      exact Nat.sub_le _ _

/-- **Both body loops are exact under short transfers.**  The file behind `sendfile` is the body. -/
theorem body_loops_exact (body : Contents) :
    (writing body).Exact body (Writing.Counts body) ∧
      (sending body body.size).Exact body (Sending.Counts body) :=
  ⟨(counted_writing body).exact fun _ => Writing.Books.counts,
    (counted_sending body).exact fun _ => Sending.Books.counts⟩

theorem hello_fits : (ascii "hello").length < 0x8000000000000000 := by decide

def hello : Contents := ⟨ascii "hello", hello_fits⟩

/-- Two bytes are taken, and then the other three. -/
def shortTransfers : List Returned := [⟨2, .other⟩, ⟨3, .other⟩]

theorem body_loops_exact_short :
    (∃ final, (writing hello).Runs shortTransfers final ∧ final.out = ascii "hello") ∧
      ∃ final, (sending hello hello.size).Runs shortTransfers final ∧
        final.out = ascii "hello" := by
  have htaken : ∀ result ∈ shortTransfers, result.taken ≠ none := by decide
  constructor
  · have hruns : (writing hello).Runs shortTransfers ⟨5, ascii "hello", none⟩ := by
      refine ⟨⟨Or.inr ⟨by decide, by decide⟩, fun next hnext => ?_⟩, rfl⟩
      obtain rfl := Option.some.inj hnext
      exact ⟨Or.inr ⟨by decide, by decide⟩, fun _ _ => trivial⟩
    exact ⟨_, hruns, (body_loops_exact hello).1.whole _ _ hruns (fun h => absurd h.2 (by decide))
      htaken⟩
  · have hruns : (sending hello hello.size).Runs shortTransfers ⟨5, 0, ascii "hello", none⟩ := by
      refine ⟨⟨Or.inr ⟨by decide, by decide⟩, fun next hnext => ?_⟩, rfl⟩
      obtain rfl := Option.some.inj hnext
      exact ⟨Or.inr ⟨by decide, by decide⟩, fun _ _ => trivial⟩
    exact ⟨_, hruns, (body_loops_exact hello).2.whole _ _ hruns (fun h => absurd h.2 (by decide))
      htaken⟩

end HttpUtil

end Sok
