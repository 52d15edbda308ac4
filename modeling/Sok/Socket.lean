import Sok.Syscall

/-!
# Reading from a socket

The kernel's receive buffer of a connection and what `recv` returns from it: the
unread bytes in blocks of up to 4096, and then 0 when the peer has closed, or -1
with EAGAIN.

The read loop of a handler takes whole blocks, so what it takes ends at a block
boundary, not at the end of the header block (`readLoop_found`).
-/

namespace Sok

/-- Bytes that have arrived and were not read yet, and whether the peer has
closed the connection or it has failed. -/
structure Socket where
  unread : Bytes
  ended : Bool
  deriving DecidableEq

namespace Socket

/-- Reading would not block. -/
def Readable (socket : Socket) : Prop :=
  socket.unread ≠ [] ∨ socket.ended = true

instance (socket : Socket) : Decidable socket.Readable :=
  inferInstanceAs (Decidable (_ ∨ _))

/-- `recv(fd, buf, 16, MSG_PEEK)`; none when it returns 0 or -1. -/
def peek (socket : Socket) : Option Bytes :=
  if socket.unread = [] then none else some (socket.unread.take 16)

end Socket

/-! ## Blocks -/

/-- The blocks in which `recv` returns the bytes; `fuel` bounds their number. -/
def blocksAux : ℕ → Bytes → List Block
  | 0, _ => []
  | fuel + 1, s =>
      if h : s = [] then []
      else ⟨s.take 4096, by simpa using h, List.length_take_le 4096 s⟩ ::
        blocksAux fuel (s.drop 4096)

/-- The blocks in which `recv` returns the bytes. -/
def blocks (s : Bytes) : List Block :=
  blocksAux s.length s

theorem blocksAux_congr {m n : ℕ} {s : Bytes} (hm : s.length ≤ m) (hn : s.length ≤ n) :
    blocksAux m s = blocksAux n s := by
  induction m generalizing n s with
  | zero =>
      obtain rfl : s = [] := by simpa using hm
      cases n <;> rfl
  | succ m ih =>
      cases n with
      | zero =>
          obtain rfl : s = [] := by simpa using hn
          rfl
      | succ n =>
          by_cases hnil : s = []
          · simp [blocksAux, hnil]
          · have hpos := List.length_pos_of_ne_nil hnil
            have hdrop : (s.drop 4096).length ≤ s.length - 1 := by
              rw [List.length_drop]
              omega
            have hrest : blocksAux m (s.drop 4096) = blocksAux n (s.drop 4096) :=
              ih (by omega) (by omega)
            rw [blocksAux, blocksAux, hrest]

@[simp] theorem blocks_nil : blocks [] = [] := rfl

theorem blocks_of_ne_nil {s : Bytes} (h : s ≠ []) :
    blocks s = ⟨s.take 4096, by simpa using h, List.length_take_le 4096 s⟩ ::
      blocks (s.drop 4096) := by
  obtain ⟨n, hn⟩ := Nat.exists_eq_succ_of_ne_zero (List.length_pos_of_ne_nil h).ne'
  have hdrop : (s.drop 4096).length ≤ n := by
    rw [List.length_drop]
    omega
  rw [blocks, hn, blocksAux, dif_neg h, blocks, blocksAux_congr hdrop le_rfl]

/-- What `recv` returns, call after call: the blocks, and then 0 or EAGAIN. -/
def Socket.results (socket : Socket) : List RecvResult :=
  (blocks socket.unread).map .data ++ [.stop (if socket.ended then .eof else .again)]

/-- The bytes in results that were not used. -/
def unreadBytes {ε : Type} : List (ReadResult ε) → Bytes
  | [] => []
  | .data block :: results => block.bytes ++ unreadBytes results
  | .stop _ :: results => unreadBytes results

theorem unreadBytes_blocks {ε : Type} (s : Bytes) (tail : List (ReadResult ε)) :
    unreadBytes ((blocks s).map .data ++ tail) = s ++ unreadBytes tail := by
  induction hn : s.length using Nat.strong_induction_on generalizing s with
  | _ n ih =>
      by_cases hnil : s = []
      · simp [hnil]
      · have hpos := List.length_pos_of_ne_nil hnil
        have hdrop := ih (s.drop 4096).length (by rw [List.length_drop]; omega) (s.drop 4096) rfl
        rw [blocks_of_ne_nil hnil, List.map_cons, List.cons_append, unreadBytes, hdrop,
          ← List.append_assoc, List.take_append_drop]

/-! ## The read loop -/

/-- The end of the block that holds the last of `n` bytes. -/
def blockEnd (n : ℕ) : ℕ :=
  4096 * ((n + 4095) / 4096)

theorem le_blockEnd (n : ℕ) : n ≤ blockEnd n := by
  unfold blockEnd
  omega

/-- Behind whole blocks without a blank line the loop reads on to the end of the
block in which the blank line ends. -/
theorem readLoop_from {ε : Type} {idle : ε} {front s : Bytes} {tail : List (ReadResult ε)} {i : ℕ}
    (halign : 4096 ∣ front.length) (hfront : ¬ headerEnd <:+: front)
    (hfind : Search.find headerEnd (front ++ s) = some i) :
    readLoop idle front ((blocks s).map .data ++ tail) =
      ⟨(front ++ s).take (blockEnd (i + 4)), none,
        (blocks ((front ++ s).drop (blockEnd (i + 4)))).map .data ++ tail⟩ := by
  -- on the bytes still to be read, block by block; `front` holds what has been read
  induction hn : s.length using Nat.strong_induction_on generalizing front s with
  | _ n ih =>
      have hreach := Search.infix_take_iff_of_find hfind
      have hlt : front.length < i + 4 := by
        refine not_le.mp fun hle => hfront ?_
        simpa using (hreach front.length).mpr hle
      have hle : i + 4 ≤ front.length + s.length := by
        rw [← List.length_append]
        exact Search.find_add_length_le hfind
      have hnil : s ≠ [] := by
        rintro rfl
        simp only [List.length_nil, Nat.add_zero] at hle
        omega
      have hpos := List.length_pos_of_ne_nil hnil
      have hblock : front ++ s.take 4096 = (front ++ s).take (front.length + 4096) := by
        rw [List.take_length_add_append]
      obtain ⟨m, hm⟩ := halign
      rw [blocks_of_ne_nil hnil, List.map_cons, List.cons_append, readLoop]
      by_cases hend : i + 4 ≤ front.length + 4096
      · -- the blank line ends in this block
        have hlast : blockEnd (i + 4) = front.length + 4096 := by
          unfold blockEnd
          omega
        rw [if_pos (by rw [hblock]; exact (hreach _).mpr hend), hlast, ← hblock,
          List.drop_length_add_append]
      · -- it ends further on, and the block is full
        have hlong : 4096 < s.length := by omega
        have hall : front ++ s.take 4096 ++ s.drop 4096 = front ++ s := by
          rw [List.append_assoc, List.take_append_drop]
        have hfront' : ¬ headerEnd <:+: front ++ s.take 4096 := by
          rw [hblock]
          exact fun hoccurs => hend ((hreach _).mp hoccurs)
        have halign' : 4096 ∣ (front ++ s.take 4096).length := by
          refine ⟨m + 1, ?_⟩
          rw [List.length_append, List.length_take]
          omega
        have hrest := ih (s.drop 4096).length (by rw [List.length_drop]; omega) halign' hfront'
          (by rwa [hall]) rfl
        rw [if_neg hfront', hrest, hall]

/-- The read loop takes the blocks up to the one in which the blank line ends. -/
theorem readLoop_found {ε : Type} {idle : ε} {s : Bytes} {tail : List (ReadResult ε)} {i : ℕ}
    (hfind : Search.find headerEnd s = some i) :
    readLoop idle [] ((blocks s).map .data ++ tail) =
      ⟨s.take (blockEnd (i + 4)), none,
        (blocks (s.drop (blockEnd (i + 4)))).map .data ++ tail⟩ := by
  have halign : 4096 ∣ ([] : Bytes).length := by simp
  simpa using readLoop_from halign (by decide) hfind

/-- Without a blank line the read loop takes everything. -/
theorem readLoop_not_found {ε : Type} {idle reason : ε} {front s : Bytes}
    {tail : List (ReadResult ε)} (h : ¬ headerEnd <:+: front ++ s) :
    readLoop idle front ((blocks s).map .data ++ .stop reason :: tail) =
      ⟨front ++ s, some reason, tail⟩ := by
  induction hn : s.length using Nat.strong_induction_on generalizing front s with
  | _ n ih =>
      by_cases hnil : s = []
      · simp [hnil, readLoop]
      · have hpos := List.length_pos_of_ne_nil hnil
        have hblock : ¬ headerEnd <:+: front ++ s.take 4096 := fun hoccurs =>
          h (hoccurs.trans ((List.prefix_append_right_inj _).mpr (List.take_prefix _ _)).isInfix)
        have hall : front ++ s.take 4096 ++ s.drop 4096 = front ++ s := by
          rw [List.append_assoc, List.take_append_drop]
        rw [blocks_of_ne_nil hnil, List.map_cons, List.cons_append, readLoop, if_neg hblock,
          ih (s.drop 4096).length (by rw [List.length_drop]; omega) (by rwa [hall]) rfl, hall]

end Sok
