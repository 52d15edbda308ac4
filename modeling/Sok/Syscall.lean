import Mathlib.Algebra.Order.Ring.Int
import Sok.Foundation.Transfer
import Sok.Text

/-!
# System and OpenSSL calls

The outcomes of the calls the handlers make, as far as the code tells them
apart.  A handler is run on the list of the results its calls return, in order;
every sequence of results of the environment is such a list.

A write that succeeds is `full` when it takes everything it was offered and
`short n` when it takes `n` bytes of it.
-/

namespace Sok

/-! ## Writing -/

/-- The values of `errno` that the writers distinguish. -/
inductive Errno
  | again  -- EAGAIN, EWOULDBLOCK
  | epipe
  | other
  deriving DecidableEq, Repr

/-- What `SSL_get_error` reports after a failed call. -/
inductive SslError
  | want  -- SSL_ERROR_WANT_READ, SSL_ERROR_WANT_WRITE
  | epipe  -- SSL_ERROR_SYSCALL with errno EPIPE
  | other
  deriving DecidableEq, Repr

/-- The result of one call that writes. -/
inductive CallResult (ε : Type)
  | full
  | short (count : ℕ)
  | fail (error : ε)
  deriving DecidableEq, Repr

abbrev WriteResult := CallResult Errno

abbrev SslWriteResult := CallResult SslError

/-- `write(fd, buf, count)`: the number of bytes taken. -/
def write (count : ℕ) : WriteResult → Except Errno ℕ
  | .full => .ok count
  | .short n => .ok (min n count)
  | .fail error => .error error

/-- `sendfile(out, in, &offset, count)` with `left` bytes of the file behind the
offset: at the end of the file it returns 0. -/
def sendfile (left count : ℕ) (result : WriteResult) : Except Errno ℕ :=
  write (min count left) result

/-- The conversion of a `size_t` to `int`. -/
@[irreducible]
def toInt (n : ℕ) : ℤ :=
  Int.bmod n 0x100000000

/-- `SSL_write(ssl, buf, num)`: it never succeeds on a length that is not
positive, and a success takes at least one byte. -/
def sslWrite (num : ℤ) : SslWriteResult → Except SslError ℕ
  | .fail error => .error error
  | .full => if 0 < num then .ok num.toNat else .error .other
  | .short n => if 0 < num ∧ 0 < n then .ok (min n num.toNat) else .error .other

theorem write_le {count moved : ℕ} {result : WriteResult}
    (h : write count result = .ok moved) : moved ≤ count := by
  cases result with
  | full => exact (Except.ok.inj h).ge
  | short n => exact (Except.ok.inj h) ▸ min_le_right n count
  | fail error => exact absurd h (by simp [write])

theorem toInt_le (n : ℕ) : toInt n ≤ n := by
  unfold toInt
  rw [Int.bmod_def]
  split <;> omega

theorem toInt_of_lt {n : ℕ} (h : n < 0x80000000) : toInt n = n := by
  unfold toInt
  rw [Int.bmod_def]
  split <;> omega

theorem toNat_toInt {n : ℕ} (h : 0 ≤ toInt n) : (toInt n).toNat = n % 0x100000000 := by
  unfold toInt at h ⊢
  have hdef := Int.bmod_def n 0x100000000
  split at hdef <;> omega

/-- What is left of a length when its own conversion has been taken off. -/
theorem toInt_sub_toNat {n : ℕ} (h : 0 ≤ toInt n) : toInt (n - (toInt n).toNat) = 0 := by
  have hleft : n - (toInt n).toNat = 0x100000000 * (n / 0x100000000) := by
    have hmod := toNat_toInt h
    omega
  have hdef := Int.bmod_def (0x100000000 * (n / 0x100000000) : ℕ) 0x100000000
  rw [hleft]
  unfold toInt
  split at hdef <;> omega

theorem sslWrite_full {num : ℤ} (h : 0 < num) : sslWrite num .full = .ok num.toNat :=
  if_pos h

theorem sslWrite_refused {num : ℤ} (h : num ≤ 0) (result : SslWriteResult) :
    ∃ error, sslWrite num result = .error error := by
  cases result with
  | full => exact ⟨.other, if_neg (not_lt.mpr h)⟩
  | short n => exact ⟨.other, if_neg fun hpos => not_lt.mpr h hpos.1⟩
  | fail error => exact ⟨error, rfl⟩

theorem sslWrite_le {n moved : ℕ} {result : SslWriteResult}
    (h : sslWrite (toInt n) result = .ok moved) : moved ≤ n := by
  have hle := toInt_le n
  cases result with
  | fail error => exact absurd h (by simp [sslWrite])
  | full =>
      simp only [sslWrite] at h
      split at h
      · obtain rfl := Except.ok.inj h
        omega
      · exact absurd h (by simp)
  | short k =>
      simp only [sslWrite] at h
      split at h
      · obtain rfl := Except.ok.inj h
        omega
      · exact absurd h (by simp)

/-! ## Reading -/

/-- What a successful read of up to 4096 bytes returns. -/
structure Block where
  bytes : Bytes
  nonempty : bytes ≠ []
  fits : bytes.length ≤ 4096
  deriving DecidableEq

/-- The result of one call that reads: a block, or a reason why there is none. -/
inductive ReadResult (ε : Type)
  | data (block : Block)
  | stop (reason : ε)
  deriving DecidableEq

/-- Why `recv` returned nothing: 0, or -1 with EAGAIN/EWOULDBLOCK, or -1 with
another error. -/
inductive RecvStop
  | eof
  | again
  | error
  deriving DecidableEq, Repr

/-- Why `SSL_read` returned nothing: 0, or a negative value with
`SSL_ERROR_WANT_READ`/`WANT_WRITE`, or with another error. -/
inductive SslReadStop
  | closed
  | want
  | error
  deriving DecidableEq, Repr

abbrev RecvResult := ReadResult RecvStop

abbrev SslReadResult := ReadResult SslReadStop

/-- What the read loop of a handler ends with. -/
structure ReadRun (ε : Type) where
  request : Bytes
  /-- The reason the last call gave, or `none` when the loop broke out because
  the request has its blank line. -/
  stop : Option ε
  /-- The results not used. -/
  rest : List (ReadResult ε)

/-- `while ((len = read(...)) > 0) { append; if (found "\r\n\r\n") break; }`.
On a non-blocking socket a call without data returns `idle`. -/
def readLoop {ε : Type} (idle : ε) (request : Bytes) : List (ReadResult ε) → ReadRun ε
  | [] => ⟨request, some idle, []⟩
  | .data block :: rest =>
      if headerEnd <:+: request ++ block.bytes then ⟨request ++ block.bytes, none, rest⟩
      else readLoop idle (request ++ block.bytes) rest
  | .stop reason :: rest => ⟨request, some reason, rest⟩

/-- Reading breaks out of the loop exactly when the blank line is there. -/
theorem readLoop_stop_eq_none_iff {ε : Type} (idle : ε) {request : Bytes}
    (hrequest : ¬ headerEnd <:+: request) (results : List (ReadResult ε)) :
    (readLoop idle request results).stop = none ↔
      headerEnd <:+: (readLoop idle request results).request := by
  induction results generalizing request with
  | nil => simpa [readLoop] using hrequest
  | cons result rest ih =>
      cases result with
      | stop reason => simpa [readLoop] using hrequest
      | data block =>
          by_cases hfound : headerEnd <:+: request ++ block.bytes
          · simp [readLoop, hfound]
          · rw [readLoop, if_neg hfound]
            exact ih hfound

end Sok
