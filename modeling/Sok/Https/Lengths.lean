import Sok.Http.BodyLoops
import Sok.Https.Send

/-!
# The length arguments of `SSL_write`

The loop over the mapped file, with its machine integers.  `total` and the file size are
64 bits wide, but `SSL_write` takes its length as `int`, so of `filesize - total`
only the low 32 bits arrive, and they are read with a sign.

Whatever the length is, no more is taken than is left, so what is put out is always a prefix of
the file.  The length is right in every pass exactly for files shorter than 2^31 bytes.
For a longer one there is a pass whose length is zero or negative: the first, or
the one behind a first call that takes all it is offered, since what is left then is a
multiple of 2^32.
-/

namespace Sok.HttpsUtil

/-- `filesize - total` as `SSL_write` receives it. -/
def lengthArg (file : Contents) (total : UInt64) : Int32 :=
  (file.size - total).toUInt32.toInt32

/-- What `SSL_write` returns, and what `SSL_get_error` says behind it. -/
structure SslReturned where
  ret : Int32
  error : SslError
  deriving DecidableEq

namespace SslReturned

/-- A positive result is at most the length. -/
def Within (num : Int32) (result : SslReturned) : Prop :=
  result.ret ≤ 0 ∨ result.ret ≤ num

/-- The loop is left on a result that is not positive. -/
def taken (result : SslReturned) : Option ℕ :=
  if result.ret ≤ 0 then none else some result.ret.toNatClampNeg

/-- The outcome as the handlers tell results apart. -/
def outcome (result : SslReturned) : SslWriteResult :=
  if result.ret ≤ 0 then .fail result.error else .short result.ret.toNatClampNeg

end SslReturned

/-- The loop over the mapped file between two passes. -/
structure Mapped where
  total : UInt64
  out : Bytes
  /-- What `SSL_get_error` said of the call that the loop was left on. -/
  failed : Option SslError

/-- `while (total < (size_t)filesize)`. -/
def Mapped.Running (file : Contents) (s : Mapped) : Prop :=
  s.failed = none ∧ s.total < file.size

instance (file : Contents) (s : Mapped) : Decidable (s.Running file) :=
  inferInstanceAs (Decidable (_ ∧ _))

/-- `ret = SSL_write(ssl, file_mem + total, filesize - total)`, with `return` or `break` when
`ret <= 0` and `total += ret` otherwise. -/
def mapped (file : Contents) : BodyLoop Mapped SslReturned where
  start := ⟨0, [], none⟩
  step s result :=
    if s.Running file then
      some <|
        if result.ret ≤ 0 then { s with failed := some result.error }
        else
          { s with
            total := s.total + result.ret.toInt64.toUInt64
            out := s.out ++ (file.bytes.drop s.total.toNat).take result.ret.toNatClampNeg }
    else none
  Running := Mapped.Running file
  Accepts s := SslReturned.Within (lengthArg file s.total)
  view s := ⟨s.out, s.failed.isSome⟩
  taken := SslReturned.taken

/-! ## The length -/

/-- The conversion takes the low 32 bits, with a sign. -/
theorem toInt_toInt32 (x : UInt64) : x.toUInt32.toInt32.toInt = toInt x.toNat := by
  unfold toInt
  show x.toUInt32.toBitVec.toInt = _
  rw [BitVec.toInt_eq_toNat_bmod]
  show Int.bmod (x.toUInt32.toNat : ℤ) _ = _
  rw [UInt64.toNat_toUInt32, Int.natCast_emod]
  exact Int.emod_bmod _ _

theorem toInt_lengthArg {file : Contents} {total : UInt64} (h : total ≤ file.size) :
    (lengthArg file total).toInt = toInt (file.bytes.length - total.toNat) := by
  rw [lengthArg, toInt_toInt32, UInt64.toNat_sub_of_le _ _ h, Contents.toNat_size]

theorem lengthArg_le {file : Contents} {total : UInt64} (h : total ≤ file.size) :
    (lengthArg file total).toInt ≤ (file.bytes.length : ℤ) - total.toNat := by
  have hle := toInt_le (file.bytes.length - total.toNat)
  rw [UInt64.le_iff_toNat_le, Contents.toNat_size] at h
  rw [toInt_lengthArg (by rwa [UInt64.le_iff_toNat_le, Contents.toNat_size])]
  omega

/-! ## What the loop puts out -/

theorem toNat_of_pos {ret : Int32} (h : ¬ ret ≤ 0) :
    ret.toInt64.toUInt64.toNat = ret.toNatClampNeg ∧ 0 < ret.toNatClampNeg ∧
      (ret.toNatClampNeg : ℤ) = ret.toInt := by
  have hpos : 0 < ret := Int32.not_le.mp h
  have hpos' : 0 ≤ ret.toInt64 := by
    rw [Int64.le_iff_toInt_le, Int32.toInt_toInt64]
    exact Int32.le_iff_toInt_le.mp (Int32.le_of_lt hpos)
  refine ⟨?_, (Int32.toNatClampNeg_pos_iff ret).mpr hpos,
    Int32.cast_toNatClampNeg _ (Int32.le_of_lt hpos)⟩
  rw [Int64.toNat_toUInt64_of_le hpos', Int32.toNatClampNeg_toInt64]

theorem taken_of_le {result : SslReturned} (h : result.ret ≤ 0) : result.taken = none :=
  if_pos h

theorem taken_of_not_le {result : SslReturned} (h : ¬ result.ret ≤ 0) :
    result.taken = some result.ret.toNatClampNeg :=
  if_neg h

/-- `total` counts what has been put out. -/
def Mapped.Books (file : Contents) (s : Mapped) : Prop :=
  s.total.toNat = s.out.length ∧ s.out <+: file.bytes

theorem Mapped.Books.total_le {file : Contents} {s : Mapped} (h : s.Books file) :
    s.total ≤ file.size := by
  rw [UInt64.le_iff_toNat_le, Contents.toNat_size, h.1]
  exact h.2.length_le

theorem running_mapped {file : Contents} {s : Mapped} (h : s.Books file) :
    s.Running file ↔ Transfer.Moving.Running file.bytes ⟨s.out, s.failed.isSome⟩ :=
  total_lt_iff h.1

theorem le_of_within {file : Contents} {s : Mapped} {result : SslReturned} (h : s.Books file)
    (hwithin : result.Within (lengthArg file s.total)) (hret : ¬ result.ret ≤ 0) :
    s.out.length + result.ret.toNatClampNeg ≤ file.bytes.length := by
  have hle := Int32.le_iff_toInt_le.mp (hwithin.resolve_left hret)
  have hlength := lengthArg_le h.total_le
  obtain ⟨-, -, hcast⟩ := toNat_of_pos hret
  rw [h.1] at hlength
  omega

/-- Whatever the length is, the loop puts out a prefix of the file and ends. -/
theorem counted_mapped (file : Contents) : (mapped file).Counted file (Mapped.Books file) where
  start_books := ⟨rfl, List.nil_prefix⟩
  start_view := rfl
  running _ h := running_mapped h
  passes state result hrunning := ⟨_, if_pos hrunning⟩
  step state result next hbooks haccepts hstep := by
    obtain ⟨hrunning, hnext⟩ := Option.ite_none_right_eq_some.mp hstep
    obtain rfl := Option.some.inj hnext
    have hmoving := (running_mapped hbooks).mp hrunning
    show _ ∧ Transfer.Moves file.bytes _ result.taken ∧
      (Transfer.moving file.bytes).step _ result.taken = _
    by_cases hret : result.ret ≤ 0
    · rw [if_pos hret, taken_of_le hret]
      exact ⟨hbooks, Transfer.moves_none, Transfer.moving_stop hmoving⟩
    · have hle := le_of_within hbooks haccepts hret
      obtain ⟨hcount, hpos, -⟩ := toNat_of_pos hret
      rw [if_neg hret, taken_of_not_le hret]
      refine ⟨total_add_piece hbooks.1 hbooks.2 hcount hle, Transfer.moves_some hpos hle, ?_⟩
      rw [hbooks.1]
      exact Transfer.moving_some hmoving _

/-- `mmapLoop` does on numbers what the loop does on words. -/
theorem mmapLoop_of_runs {file : Contents} {results : List SslReturned} {final : Mapped}
    (h : (mapped file).Runs results final) :
    (mmapLoop file.bytes (results.map SslReturned.outcome)).out = final.out ∧
      (mmapLoop file.bytes (results.map SslReturned.outcome)).total = final.total.toNat ∧
      ((mmapLoop file.bytes (results.map SslReturned.outcome)).ended.isSome ↔
        ¬ final.Running file) := by
  rw [((counted_mapped file).runs h).1.1]
  refine (counted_mapped file).loop_of_runs
    (fun total result => sslWrite (toInt (file.bytes.length - total)) result) SslReturned.outcome
    (fun state result hbooks haccepts _ => ?_) h
  show Transfer.Agrees result.taken
    (sslWrite (toInt (file.bytes.length - state.out.length)) result.outcome)
  by_cases hret : result.ret ≤ 0
  · rw [taken_of_le hret, SslReturned.outcome, if_pos hret]
    exact ⟨result.error, rfl⟩
  · rw [taken_of_not_le hret, SslReturned.outcome, if_neg hret]
    obtain ⟨-, hpos, hcast⟩ := toNat_of_pos hret
    have hle := Int32.le_iff_toInt_le.mp (haccepts.resolve_left hret)
    rw [toInt_lengthArg hbooks.total_le, hbooks.1] at hle
    have hnum : 0 < toInt (file.bytes.length - state.out.length) := by omega
    show sslWrite _ (.short _) = _
    rw [sslWrite, if_pos ⟨hnum, hpos⟩, min_eq_left (by omega)]

/-! ## The whole range of sizes -/

/-- Every length that `SSL_write` receives is between 1 and what is left, the total stays within
the file, and a loop that is not left from inside has written the file. -/
structure LengthsExact (file : Contents) : Prop where
  length : ∀ results s, (mapped file).Runs results s → s.Running file →
    1 ≤ (lengthArg file s.total).toInt ∧
      (lengthArg file s.total).toInt ≤ (file.bytes.length : ℤ) - s.total.toNat
  total_le : ∀ results s, (mapped file).Runs results s → s.total ≤ file.size
  written : ∀ results s, (mapped file).Runs results s → ¬ s.Running file → s.failed = none →
    s.out = file.bytes

theorem lengthsExact_of_lt {file : Contents} (h : file.bytes.length < 0x80000000) :
    LengthsExact file where
  length results s hruns hrunning := by
    obtain ⟨hbooks, -⟩ := (counted_mapped file).runs hruns
    refine ⟨?_, lengthArg_le hbooks.total_le⟩
    have hlt : s.total.toNat < file.bytes.length := by
      rw [← Contents.toNat_size]
      exact UInt64.lt_iff_toNat_lt.mp hrunning.2
    rw [toInt_lengthArg hbooks.total_le, toInt_of_lt (by omega)]
    omega
  total_le results s hruns := ((counted_mapped file).runs hruns).1.total_le
  written results s hruns hend hfailed := by
    obtain ⟨hbooks, -⟩ := (counted_mapped file).runs hruns
    have hle : ¬ s.total < file.size := fun hlt => hend ⟨hfailed, hlt⟩
    rw [UInt64.lt_iff_toNat_lt, Contents.toNat_size, hbooks.1, not_lt] at hle
    exact hbooks.2.eq_of_length_le hle

theorem running_start {file : Contents} (h : 0 < file.bytes.length) :
    (mapped file).start.Running file := by
  refine ⟨rfl, ?_⟩
  rw [UInt64.lt_iff_toNat_lt, Contents.toNat_size]
  exact h

theorem toInt_lengthArg_start (file : Contents) :
    (lengthArg file 0).toInt = toInt file.bytes.length := by
  rw [toInt_lengthArg UInt64.zero_le]
  rfl

/-- The first call takes all it is offered: then a multiple of 2^32 is left, and the length of the
next call is zero. -/
theorem refused_behind_first {file : Contents} (h : 0x80000000 ≤ file.bytes.length)
    (hpos : 0 < (lengthArg file 0).toInt) :
    ∃ s, (mapped file).Runs [⟨lengthArg file 0, .other⟩] s ∧ s.Running file ∧
      (lengthArg file s.total).toInt = 0 := by
  have hret : ¬ lengthArg file 0 ≤ 0 := by
    rw [Int32.le_iff_toInt_le]
    exact not_le.mpr hpos
  have hrunning : (mapped file).start.Running file := running_start (by omega)
  have hstep : ∃ s, (mapped file).step (mapped file).start ⟨lengthArg file 0, .other⟩ = some s ∧
      s.total.toNat = (lengthArg file 0).toNatClampNeg ∧ s.failed = none := by
    refine ⟨_, if_pos hrunning, ?_⟩
    rw [if_neg hret]
    refine ⟨?_, rfl⟩
    show (0 + (lengthArg file 0).toInt64.toUInt64).toNat = _
    rw [UInt64.zero_add]
    exact (toNat_of_pos hret).1
  obtain ⟨s, hs, htotal, hfailed⟩ := hstep
  have hruns : (mapped file).Runs [⟨lengthArg file 0, .other⟩] s :=
    Transition.System.Run.cons (Or.inr (Int32.le_refl _)) hs (Transition.System.Run.nil s)
  have htaken : s.total.toNat = (toInt file.bytes.length).toNat := by
    rw [htotal, ← Int32.toNat_toInt, toInt_lengthArg_start]
  have hlt : s.total.toNat < file.bytes.length := by
    have hbound := (lengthArg file 0).toInt_lt
    rw [toInt_lengthArg_start] at hbound
    omega
  refine ⟨s, hruns, ⟨hfailed, ?_⟩, ?_⟩
  · rwa [UInt64.lt_iff_toNat_lt, Contents.toNat_size]
  · rw [toInt_lengthArg ((counted_mapped file).runs hruns).1.total_le, htaken]
    rw [toInt_lengthArg_start] at hpos
    exact toInt_sub_toNat hpos.le

/-- Of a file of 2^31 bytes or more, a length that is not positive is passed to the first call or
to the second. -/
theorem exists_refused_length {file : Contents} (h : 0x80000000 ≤ file.bytes.length) :
    ∃ results s, (mapped file).Runs results s ∧ s.Running file ∧
      (lengthArg file s.total).toInt ≤ 0 := by
  by_cases hpos : 0 < (lengthArg file 0).toInt
  · obtain ⟨s, hruns, hrunning, hzero⟩ := refused_behind_first h hpos
    exact ⟨_, s, hruns, hrunning, hzero.le⟩
  · exact ⟨[], (mapped file).start, Transition.System.Run.nil _, running_start (by omega),
      not_lt.mp hpos⟩

/-- **The lengths are exact for files shorter than 2^31 bytes, and for no others.** -/
theorem lengthsExact_iff (file : Contents) :
    LengthsExact file ↔ file.bytes.length < 0x80000000 := by
  refine ⟨fun hexact => ?_, lengthsExact_of_lt⟩
  by_contra hle
  obtain ⟨results, s, hruns, hrunning, hrefused⟩ := exists_refused_length (not_lt.mp hle)
  have hlength := (hexact.length results s hruns hrunning).1
  omega

/-- A file of zeros. -/
def zeros (n : ℕ) (h : n < 0x8000000000000000) : Contents where
  bytes := List.replicate n 0
  fits := List.length_replicate.trans_lt h

/-- Of a file of 4 GiB the first length is zero. -/
theorem four_gigabytes_refused :
    ¬ LengthsExact (zeros 0x100000000 (by decide)) := by
  intro hexact
  have hsize : (zeros 0x100000000 (by decide)).bytes.length = 0x100000000 :=
    List.length_replicate
  have hzero : (lengthArg (zeros 0x100000000 (by decide)) 0).toInt = 0 := by
    rw [toInt_lengthArg_start, hsize]
    decide +kernel
  have hlength := hexact.length [] _ (Transition.System.Run.nil _) (running_start (by omega))
  exact absurd (hlength.1.trans_eq hzero) (by decide)

end Sok.HttpsUtil
