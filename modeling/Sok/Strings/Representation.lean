import Sok.Strings.Model

/-!
# What an object represents

A well-formed object has no buffer and no characters, or a buffer of `capacity_ + 1`
characters that holds its characters, with the terminator at `size_`.  For each member
function: what it makes of well-formed objects when it stays within the buffers, and the
cases in which it does not.  These are the copy of an object without a buffer,
`resize(0)` on one, and so every empty slice, and requests for the largest
`size_t`, to which adding 1 gives 0.
-/

namespace Sok.Mstd

/-- The largest `size_t`. -/
def npos : UInt64 := 0xFFFFFFFFFFFFFFFF

/-- An object is well formed. -/
def Formed (s : String) : Prop :=
  match s.data with
  | none => s.size = 0 ∧ s.capacity = 0
  | some buffer =>
      buffer.length = s.capacity.toNat + 1 ∧ buffer.length < 0x8000000000000000 ∧
        s.size ≤ s.capacity ∧ buffer[s.size.toNat]? = some 0

def HasBuffer (s : String) : Prop :=
  s.data.isSome = true

/-! ## Words and memory -/

theorem toNat_succ {n : UInt64} (h : n ≠ npos) : (n + 1).toNat = n.toNat + 1 := by
  have hlt := n.toNat_lt
  have hne : n.toNat ≠ npos.toNat := fun heq => h (UInt64.toNat_inj.mp heq)
  have hnpos : npos.toNat = 18446744073709551615 := by decide
  have hone : (1 : UInt64).toNat = 1 := rfl
  rw [UInt64.toNat_add, hone, Nat.mod_eq_of_lt (by omega)]

theorem ne_npos {n : UInt64} (h : n.toNat + 1 < 0x8000000000000000) : n ≠ npos := by
  intro heq
  have hnpos : npos.toNat = 18446744073709551615 := by decide
  rw [heq, hnpos] at h
  omega

theorem makeUnique_succ {n : UInt64} (h : n.toNat + 1 < 0x8000000000000000) :
    makeUnique (n + 1) true = .ok (List.replicate (n.toNat + 1) 0) := by
  have hsucc := toNat_succ (ne_npos h)
  rw [makeUnique, hsucc, if_pos ⟨rfl, h⟩]

theorem makeUnique_refused (n : UInt64) :
    makeUnique n false = .error (.throws .badAlloc) :=
  if_neg (by simp)

/-- A request that is larger than any object. -/
theorem makeUnique_large {n : UInt64} (h : 0x8000000000000000 ≤ n.toNat) (granted : Bool) :
    makeUnique n granted = .error (.throws .badAlloc) :=
  if_neg fun hsmall => not_lt.mpr h hsmall.2

theorem memcpy_ok {dst src after : Bytes} {start count : UInt64}
    (h : Buffer.copyInto dst src start.toNat count.toNat = some after) :
    memcpy (some dst) (some src) start count = .ok after := by
  simp only [memcpy, Option.bind_some, h, access]

theorem assignAt_ok {data after : Bytes} {index : UInt64} {value : UInt8}
    (h : Buffer.store data index.toNat value = some after) :
    assignAt (some data) index value = .ok after := by
  simp only [assignAt, Option.bind_some, h, access]

/-! ## Characters in a buffer -/

theorem formed_of_holds {buffer contents : Bytes} {size capacity : UInt64}
    (h : Buffer.Holds 0 buffer contents) (hsize : size.toNat = contents.length)
    (hlength : buffer.length = capacity.toNat + 1)
    (hfits : capacity.toNat + 1 < 0x8000000000000000) :
    Formed ⟨some buffer, size, capacity⟩ ∧ String.chars ⟨some buffer, size, capacity⟩ = contents := by
  have hlt := h.length_lt
  have htake : buffer.take size.toNat = contents := by
    rw [hsize]
    exact h.take_eq
  refine ⟨⟨hlength, hlength ▸ hfits, ?_, ?_⟩, htake⟩
  · show size ≤ capacity
    rw [UInt64.le_iff_toNat_le]
    omega
  · show buffer[size.toNat]? = some 0
    rw [← Buffer.holds_iff (by omega), htake]
    exact h

theorem Formed.holds {s : String} {buffer : Bytes} (h : Formed s) (hdata : s.data = some buffer) :
    Buffer.Holds 0 buffer s.chars ∧ s.size.toNat = s.chars.length ∧
      s.size ≤ s.capacity ∧ buffer.length = s.capacity.toNat + 1 ∧
      s.capacity.toNat + 1 < 0x8000000000000000 := by
  rw [Formed, hdata] at h
  obtain ⟨hlength, hfits, hle, hnul⟩ := h
  have hlt : s.size.toNat < buffer.length := by
    rw [UInt64.le_iff_toNat_le] at hle
    omega
  have hchars : s.chars = buffer.take s.size.toNat := by
    rw [String.chars, hdata]
    rfl
  refine ⟨?_, ?_, hle, hlength, hlength ▸ hfits⟩
  · rw [hchars, Buffer.holds_iff hlt]
    exact hnul
  · rw [hchars, List.length_take, Nat.min_eq_left hlt.le]

theorem Formed.of_none {s : String} (h : Formed s) (hdata : s.data = none) :
    s = String.construct := by
  obtain ⟨data, size, capacity⟩ := s
  obtain rfl : data = none := hdata
  obtain ⟨rfl, rfl⟩ : size = 0 ∧ capacity = 0 := h
  rfl

theorem formed_construct : Formed String.construct :=
  ⟨rfl, rfl⟩

/-- No well-formed object has room for the largest number of characters. -/
theorem Formed.capacity_lt {s : String} (h : Formed s) : s.capacity < npos := by
  cases hdata : s.data with
  | none =>
      obtain rfl := h.of_none hdata
      decide
  | some buffer =>
      obtain ⟨-, -, -, -, hfits⟩ := h.holds hdata
      have hnpos : npos.toNat = 18446744073709551615 := by decide
      rw [UInt64.lt_iff_toNat_lt]
      omega

/-! ## Copies -/

/-- A new buffer for at least the characters of another one, and the copy of these with their
terminator. -/
theorem duplicate {source contents : Bytes} {size capacity : UInt64}
    (h : Buffer.Holds 0 source contents) (hsize : size.toNat = contents.length)
    (hle : size ≤ capacity) (hfits : capacity.toNat + 1 < 0x8000000000000000) :
    ∃ data, memcpy (some (List.replicate (capacity.toNat + 1) 0)) (some source) 0 (size + 1) =
        .ok data ∧
      Formed ⟨some data, size, capacity⟩ ∧
      String.chars ⟨some data, size, capacity⟩ = contents := by
  rw [UInt64.le_iff_toNat_le] at hle
  have hroom : contents.length < (List.replicate (capacity.toNat + 1) (0 : UInt8)).length := by
    rw [List.length_replicate]
    omega
  obtain ⟨data, hcopy, hlength, hholds⟩ := Buffer.holds_copyInto h hroom
  rw [List.length_replicate] at hlength
  refine ⟨data, memcpy_ok ?_, formed_of_holds hholds hsize hlength hfits⟩
  rw [toNat_succ (ne_npos (by omega)), hsize]
  exact hcopy

theorem strlen_toNat (s : CString) : s.strlen.toNat = s.chars.length := by
  have hfits := s.fits
  have hposition : s.array.idxOf 0 = s.chars.length := by
    rw [CString.array, List.idxOf_append_of_notMem s.noNul]
    simp
  rw [CString.strlen, hposition]
  apply UInt64.toNat_ofNat_of_lt'
  rw [UInt64.size]
  omega

namespace String

theorem constructChars_granted (s : CString) :
    ∃ object, constructChars s true = .ok object ∧ Formed object ∧ HasBuffer object ∧
      object.chars = s.chars := by
  have hlength := strlen_toNat s
  have hfits : s.strlen.toNat + 1 < 0x8000000000000000 := hlength ▸ s.fits
  obtain ⟨data, hcopy, hformed, hchars⟩ :=
    duplicate (List.prefix_refl s.array) hlength (UInt64.le_refl _) hfits
  refine ⟨⟨some data, s.strlen, s.strlen⟩, ?_, hformed, rfl, hchars⟩
  simp only [constructChars, makeUnique_succ hfits, hcopy, bind, Except.bind]
  rfl

theorem constructChars_refused (s : CString) :
    constructChars s false = .error (.throws .badAlloc) := by
  simp only [constructChars, makeUnique_refused, bind, Except.bind]

theorem copyConstruct_granted {other : String} (h : Formed other) (hdata : HasBuffer other) :
    ∃ object, copyConstruct other true = .ok object ∧ Formed object ∧ HasBuffer object ∧
      object.chars = other.chars := by
  obtain ⟨buffer, hbuffer⟩ := Option.isSome_iff_exists.mp hdata
  obtain ⟨hholds, hsize, hle, -, hfits⟩ := h.holds hbuffer
  obtain ⟨data, hcopy, hformed, hchars⟩ := duplicate hholds hsize hle hfits
  refine ⟨⟨some data, other.size, other.capacity⟩, ?_, hformed, rfl, hchars⟩
  simp only [copyConstruct, makeUnique_succ hfits, hbuffer, hcopy, bind, Except.bind]
  rfl

theorem copyConstruct_refused (other : String) :
    copyConstruct other false = .error (.throws .badAlloc) := by
  simp only [copyConstruct, makeUnique_refused, bind, Except.bind]

/-- The copy of an object without a buffer reads through a null pointer. -/
theorem copyConstruct_undefined {other : String} (h : Formed other) (hdata : ¬ HasBuffer other) :
    copyConstruct other true = .error .undefined := by
  obtain rfl := h.of_none (Option.not_isSome_iff_eq_none.mp hdata)
  rfl

/-- The assignment of a copy does what its construction does. -/
theorem copyAssign_eq (other : String) (granted : Bool) :
    copyAssign other granted = copyConstruct other granted := rfl

/-! ## reserve -/

theorem reserve_of_le {s : String} {newCapacity : UInt64} (h : ¬ s.capacity < newCapacity)
    (granted : Bool) : s.reserve newCapacity granted = .ok s := by
  rw [reserve, if_neg h]
  rfl

theorem reserve_granted {s : String} (h : Formed s) {newCapacity : UInt64}
    (hlt : s.capacity < newCapacity) (hfits : newCapacity.toNat + 1 < 0x8000000000000000) :
    ∃ data, s.reserve newCapacity true = .ok ⟨some data, s.size, newCapacity⟩ ∧
      Formed ⟨some data, s.size, newCapacity⟩ ∧
      String.chars ⟨some data, s.size, newCapacity⟩ = s.chars := by
  cases hdata : s.data with
  | none =>
      obtain rfl := h.of_none hdata
      have hholds : Buffer.Holds (0 : UInt8) (List.replicate (newCapacity.toNat + 1) 0) [] :=
        ⟨List.replicate newCapacity.toNat 0, rfl⟩
      refine ⟨List.replicate (newCapacity.toNat + 1) 0, ?_,
        formed_of_holds hholds rfl List.length_replicate hfits⟩
      rw [reserve, if_pos hlt, makeUnique_succ hfits]
      rfl
  | some buffer =>
      obtain ⟨hholds, hsize, hle, -, -⟩ := h.holds hdata
      obtain ⟨data, hcopy, hspec⟩ :=
        duplicate hholds hsize (UInt64.le_trans hle (UInt64.le_of_lt hlt)) hfits
      refine ⟨data, ?_, hspec⟩
      simp only [reserve, if_pos hlt, makeUnique_succ hfits, hdata, Option.isSome_some, if_true,
        hcopy, bind, Except.bind]
      rfl

theorem reserve_refused {s : String} {newCapacity : UInt64} (hlt : s.capacity < newCapacity) :
    s.reserve newCapacity false = .error (.throws .badAlloc) := by
  simp only [reserve, if_pos hlt, makeUnique_refused, bind, Except.bind]

theorem reserve_large {s : String} {newCapacity : UInt64} (hlt : s.capacity < newCapacity)
    (hlarge : 0x8000000000000000 ≤ (newCapacity + 1).toNat) (granted : Bool) :
    s.reserve newCapacity granted = .error (.throws .badAlloc) := by
  simp only [reserve, if_pos hlt, makeUnique_large hlarge, bind, Except.bind]

/-- What `reserve` makes of a well-formed object, unless it is asked for the largest number. -/
theorem reserve_cases {s : String} (h : Formed s) {newCapacity : UInt64} (granted : Bool)
    (hn : granted = true → newCapacity ≠ npos) :
    (∃ object, s.reserve newCapacity granted = .ok object ∧ Formed object ∧
        object.size = s.size ∧ object.chars = s.chars ∧ newCapacity ≤ object.capacity ∧
        (HasBuffer s ∨ s.capacity < newCapacity → HasBuffer object)) ∨
      s.reserve newCapacity granted = .error (.throws .badAlloc) ∧
        (granted = false ∨ 0x7FFFFFFFFFFFFFFF ≤ newCapacity.toNat) := by
  by_cases hlt : s.capacity < newCapacity
  · cases granted with
    | false => exact Or.inr ⟨reserve_refused hlt, Or.inl rfl⟩
    | true =>
        have hsucc := toNat_succ (hn rfl)
        by_cases hfits : newCapacity.toNat + 1 < 0x8000000000000000
        · obtain ⟨data, hreserve, hformed, hchars⟩ := reserve_granted h hlt hfits
          exact Or.inl ⟨_, hreserve, hformed, rfl, hchars, UInt64.le_refl _, fun _ => rfl⟩
        · exact Or.inr ⟨reserve_large hlt (by omega) true, Or.inr (by omega)⟩
  · refine Or.inl ⟨s, reserve_of_le hlt granted, h, rfl, rfl, UInt64.not_lt.mp hlt, ?_⟩
    exact fun hcases => hcases.resolve_right hlt

/-- The largest number: the new buffer has no characters at all. -/
theorem reserve_npos {s : String} (h : Formed s) :
    s.reserve npos true = .error .undefined ∨
      s.reserve npos true = .ok ⟨some [], 0, npos⟩ := by
  have hnone : makeUnique (npos + 1) true = .ok [] := rfl
  cases hdata : s.data with
  | none =>
      obtain rfl := h.of_none hdata
      exact Or.inr rfl
  | some buffer =>
      obtain ⟨-, -, hle, -, hfits⟩ := h.holds hdata
      rw [UInt64.le_iff_toNat_le] at hle
      have hcopy : memcpy (some []) (some buffer) 0 (s.size + 1) = .error .undefined := by
        have hcount : ([] : Bytes).length < (s.size + 1).toNat := by
          rw [toNat_succ (ne_npos (by omega))]
          exact Nat.succ_pos _
        simp only [memcpy, Option.bind_some, Buffer.copyInto_eq_none hcount, access]
      refine Or.inl ?_
      simp only [reserve, if_pos h.capacity_lt, hnone, hdata, Option.isSome_some, if_true, hcopy,
        bind, Except.bind]

/-! ## resize -/

/-- A terminator within the buffer gives the object the new size; the characters up to it stay. -/
theorem terminate {s : String} (h : Formed s) (hdata : HasBuffer s) {newSize : UInt64}
    (hle : newSize ≤ s.capacity) :
    ∃ data, assignAt s.data newSize 0 = .ok data ∧ Formed ⟨some data, newSize, s.capacity⟩ ∧
      s.chars.take newSize.toNat <+: String.chars ⟨some data, newSize, s.capacity⟩ ∧
      (String.chars ⟨some data, newSize, s.capacity⟩).length = newSize.toNat := by
  obtain ⟨buffer, hbuffer⟩ := Option.isSome_iff_exists.mp hdata
  obtain ⟨hholds, -, -, hlength, hfits⟩ := h.holds hbuffer
  rw [UInt64.le_iff_toNat_le] at hle
  have hlt : newSize.toNat < buffer.length := by omega
  obtain ⟨data, hstore, hdatalength, hdataholds⟩ := Buffer.holds_store 0 hlt
  have htake : (buffer.take newSize.toNat).length = newSize.toNat := by
    rw [List.length_take, Nat.min_eq_left hlt.le]
  obtain ⟨hformed, hchars⟩ :=
    formed_of_holds hdataholds htake.symm (hdatalength.trans hlength) hfits
  refine ⟨data, ?_, hformed, ?_, hchars ▸ htake⟩
  · rw [hbuffer]
    exact assignAt_ok hstore
  · rw [hchars]
    have hfront : s.chars <+: buffer := (List.prefix_append _ _).trans hholds
    exact hfront.take newSize.toNat

/-- What `resize` makes of a well-formed object, unless it is asked for the largest number, or for
0 without a buffer. -/
theorem resize_cases {s : String} (h : Formed s) {newSize : UInt64} (granted : Bool)
    (hnull : newSize = 0 → HasBuffer s) (hn : granted = true → newSize ≠ npos) :
    (∃ object, s.resize newSize granted = .ok object ∧ Formed object ∧ HasBuffer object ∧
        object.size = newSize ∧ s.chars.take newSize.toNat <+: object.chars ∧
        object.chars.length = newSize.toNat) ∨
      s.resize newSize granted = .error (.throws .badAlloc) ∧
        (granted = false ∨ 0x7FFFFFFFFFFFFFFF ≤ newSize.toNat) := by
  by_cases hlt : s.capacity < newSize
  · rcases reserve_cases h granted hn with ⟨object, hreserve, hformed, -, hchars, hle, hbuffer⟩ | hthrows
    · obtain ⟨data, hassign, hterminated⟩ := terminate hformed (hbuffer (Or.inr hlt)) hle
      rw [hchars] at hterminated
      refine Or.inl ⟨⟨some data, newSize, object.capacity⟩, ?_, hterminated.1, rfl, rfl,
        hterminated.2⟩
      simp only [resize, if_pos hlt, hreserve, hassign, bind, Except.bind]
      rfl
    · refine Or.inr ⟨?_, hthrows.2⟩
      simp only [resize, if_pos hlt, hthrows.1, bind, Except.bind]
  · have hdata : HasBuffer s := by
      by_contra hnone
      obtain rfl := h.of_none (Option.not_isSome_iff_eq_none.mp hnone)
      have hzero : newSize = 0 := UInt64.le_zero_iff.mp (UInt64.not_lt.mp hlt)
      exact hnone (hnull hzero)
    obtain ⟨data, hassign, hterminated⟩ := terminate h hdata (UInt64.not_lt.mp hlt)
    refine Or.inl ⟨⟨some data, newSize, s.capacity⟩, ?_, hterminated.1, rfl, rfl, hterminated.2⟩
    simp only [resize, if_neg hlt, hassign, bind, Except.bind, pure, Except.pure]

/-- Without a buffer, `resize(0)` writes through a null pointer. -/
theorem resize_undefined {s : String} (h : Formed s) (hdata : ¬ HasBuffer s) (granted : Bool) :
    s.resize 0 granted = .error .undefined := by
  obtain rfl := h.of_none (Option.not_isSome_iff_eq_none.mp hdata)
  rfl

/-- The largest number: the terminator is written outside the buffer, if not the characters are. -/
theorem resize_npos {s : String} (h : Formed s) : s.resize npos true = .error .undefined := by
  have hlt := h.capacity_lt
  rcases reserve_npos h with hundefined | hempty
  · simp only [resize, if_pos hlt, hundefined, bind, Except.bind]
  · simp only [resize, if_pos hlt, hempty, bind, Except.bind]
    rfl

/-! ## substr -/

theorem substr_of_lt {s : String} {pos : UInt64} (h : s.size < pos) (len : UInt64)
    (granted : Bool) :
    s.substr pos len granted = .error (.throws (.outOfRange (ascii "Position out of range"))) :=
  if_pos h

theorem toNat_stdMin (a b : UInt64) : (stdMin a b).toNat = min a.toNat b.toNat := by
  unfold stdMin
  split
  · rename_i hlt
    rw [UInt64.lt_iff_toNat_lt] at hlt
    omega
  · rename_i hle
    rw [UInt64.lt_iff_toNat_lt] at hle
    omega

/-- The slice of a buffer is the slice of the characters at its front. -/
theorem drop_take_front {buffer chars : Bytes} (h : chars <+: buffer) {start count : ℕ}
    (hle : start + count ≤ chars.length) :
    (buffer.drop start).take count = (chars.drop start).take count := by
  obtain ⟨rest, rfl⟩ := h
  rw [List.drop_append_of_le_length (by omega), List.take_append_of_le_length]
  rw [List.length_drop]
  omega

/-- The characters of the slice, in the object that was made large enough for them. -/
theorem slice_copied {s result : String} (h : Formed s) (hresult : Formed result)
    (hdata : HasBuffer result) {pos : UInt64}
    (hslice : pos.toNat + result.size.toNat ≤ s.chars.length) (hsome : HasBuffer s) :
    ∃ middle data, memcpy result.data s.data pos result.size = .ok middle ∧
      assignAt (some middle) result.size 0 = .ok data ∧
      Formed ⟨some data, result.size, result.capacity⟩ ∧
      String.chars ⟨some data, result.size, result.capacity⟩ =
        (s.chars.drop pos.toNat).take result.size.toNat := by
  obtain ⟨buffer, hbuffer⟩ := Option.isSome_iff_exists.mp hsome
  obtain ⟨target, htarget⟩ := Option.isSome_iff_exists.mp hdata
  obtain ⟨hholds, -, -, -, -⟩ := h.holds hbuffer
  obtain ⟨-, -, hle, hlength, hfits⟩ := hresult.holds htarget
  rw [UInt64.le_iff_toNat_le] at hle
  have hfront : s.chars <+: buffer := (List.prefix_append _ _).trans hholds
  have hsrc : pos.toNat + result.size.toNat ≤ buffer.length := hslice.trans hfront.length_le
  have hdst : result.size.toNat < target.length := by omega
  obtain ⟨middle, data, hcopy, hstore, hafter, hslice'⟩ :=
    Buffer.holds_slice 0 hsrc hdst
  rw [drop_take_front hfront hslice] at hslice'
  have hcount : ((s.chars.drop pos.toNat).take result.size.toNat).length = result.size.toNat := by
    rw [List.length_take, List.length_drop]
    omega
  refine ⟨middle, data, ?_, assignAt_ok hstore,
    formed_of_holds hslice' hcount.symm (hafter.trans hlength) hfits⟩
  rw [hbuffer, htarget]
  exact memcpy_ok hcopy

/-- A slice that is not empty is an object of its own. -/
theorem substr_cases {s : String} (h : Formed s) {pos len : UInt64} (hpos : ¬ s.size < pos)
    (hslice : 0 < stdMin len (s.size - pos)) (granted : Bool) :
    (∃ object, s.substr pos len granted = .ok object ∧ Formed object ∧ HasBuffer object ∧
        pos.toNat ≤ s.chars.length ∧ object.chars =
          (s.chars.drop pos.toNat).take (min len.toNat (s.chars.length - pos.toNat))) ∨
      s.substr pos len granted = .error (.throws .badAlloc) ∧ granted = false := by
  have hcount := toNat_stdMin len (s.size - pos)
  rw [UInt64.toNat_sub_of_le _ _ (UInt64.not_lt.mp hpos)] at hcount
  have hpos' := hpos
  have hzero : (0 : UInt64).toNat = 0 := rfl
  rw [UInt64.lt_iff_toNat_lt] at hslice hpos'
  have hsome : HasBuffer s := by
    by_contra hnone
    obtain rfl := h.of_none (Option.not_isSome_iff_eq_none.mp hnone)
    have hsize : construct.size.toNat = 0 := rfl
    omega
  obtain ⟨buffer, hbuffer⟩ := Option.isSome_iff_exists.mp hsome
  obtain ⟨-, hsize, hle, -, hfits⟩ := h.holds hbuffer
  rw [UInt64.le_iff_toNat_le] at hle
  have hnonzero : stdMin len (s.size - pos) = 0 → HasBuffer construct := by
    intro heq
    rw [heq] at hslice
    omega
  rcases resize_cases formed_construct granted hnonzero fun _ => ne_npos (by omega) with
    ⟨result, hresize, hformed, hdata, hresult, -⟩ | ⟨hthrows, hreason⟩
  · have hbounds : pos.toNat + result.size.toNat ≤ s.chars.length := by
      rw [hresult]
      omega
    obtain ⟨middle, data, hcopy, hassign, hdone, hchars⟩ :=
      slice_copied h hformed hdata hbounds hsome
    rw [hresult] at hcopy hassign
    refine Or.inl ⟨⟨some data, result.size, result.capacity⟩, ?_, hdone, rfl, by omega, ?_⟩
    · simp only [substr, if_neg hpos, hresize, hcopy, hassign, bind, Except.bind]
      rfl
    · rw [hchars, hresult, hcount, hsize]
  · refine Or.inr ⟨?_, hreason.resolve_right (by omega)⟩
    simp only [substr, if_neg hpos, hthrows, bind, Except.bind]

/-- An empty slice is not: `resize(0)` is called on an object without a buffer. -/
theorem substr_undefined {s : String} {pos len : UInt64} (hpos : ¬ s.size < pos)
    (hslice : ¬ 0 < stdMin len (s.size - pos)) (granted : Bool) :
    s.substr pos len granted = .error .undefined := by
  have hzero : stdMin len (s.size - pos) = 0 := UInt64.le_zero_iff.mp (UInt64.not_lt.mp hslice)
  have hundefined : construct.resize 0 granted = .error .undefined :=
    resize_undefined formed_construct (by simp [HasBuffer, construct]) granted
  simp only [substr, if_neg hpos, hzero, hundefined, bind, Except.bind]

end String

end Sok.Mstd
