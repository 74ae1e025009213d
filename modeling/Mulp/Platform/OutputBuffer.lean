import Mathlib.Algebra.Order.Ring.Int
import Mathlib.Tactic.Positivity
import Mulp.Platform.Process

/-! The buffer that the output of a command is read into (`platform/process_stub.c`).

The numbers are signed, of 32 bits; a sum or product that leaves their range is a
fault, and so is a copy past the capacity. -/
namespace Mulp.Platform

inductive Fault where
  | overflow
  | outOfBounds
  | endless
  deriving DecidableEq

/-- A signed value of 32 bits. A sum or product that is none has no defined result in C, and is a
fault here. -/
def signed (n : Int) : Except Fault Int :=
  if -2 ^ 31 ≤ n ∧ n < 2 ^ 31 then .ok n else .error .overflow

/-- `*buffer`, by the bytes written to it, `*length` and `*capacity`. -/
structure OutputBuffer where
  contents : Option (List UInt8)
  length : Int
  capacity : Int

namespace OutputBuffer

def empty : OutputBuffer := ⟨none, 0, 0⟩

/-- The loop of `mulp_append`, for at most `n` turns. -/
def nextCapacity (needed : Int) : Nat → Int → Except Fault Int
  | 0, _ => .error .endless
  | n + 1, capacity =>
      if capacity < needed then do
        let doubled ← signed (capacity * 2)
        nextCapacity needed n doubled
      else .ok capacity

/-- `memcpy` to the end of the bytes, and the new length. -/
def copy (buffer : OutputBuffer) (bytes chunk : List UInt8) : Except Fault OutputBuffer :=
  if buffer.length + chunk.length ≤ buffer.capacity then do
    let length ← signed (buffer.length + chunk.length)
    .ok { buffer with contents := some (bytes ++ chunk), length }
  else .error .outOfBounds

/-- `mulp_append`, where `realloc` is asked for a size. A loop of more than 32 turns
would not end. -/
def mulpAppend (realloc : Int → Bool) (buffer : OutputBuffer) (chunk : List UInt8) :
    Except Fault OutputBuffer := do
  let needed ← signed (buffer.length + chunk.length)
  if buffer.capacity < needed then
    let capacity ← nextCapacity needed 32 (if buffer.capacity = 0 then 4096 else buffer.capacity)
    if realloc capacity then copy { buffer with capacity } (buffer.contents.getD []) chunk
    else .ok empty
  else
    match buffer.contents with
    | some bytes => copy buffer bytes chunk
    | none => .error .outOfBounds

/-- The loop of `mulp_read_file`, over what `fread` gives. -/
def mulpReadFile (realloc : Int → Bool) (buffer : OutputBuffer) :
    List (List UInt8) → Except Fault OutputBuffer
  | [] => .ok buffer
  | chunk :: rest => do
      let buffer ← mulpAppend realloc buffer chunk
      match buffer.contents with
      | some _ => mulpReadFile realloc buffer rest
      | none => .ok buffer

end OutputBuffer

/-- The length that `mulp_run_shell` asks `moonbit_make_bytes` for. -/
def frameLength (lead stdout stderr : List UInt8) : Except Fault Int := do
  let first ← signed (lead.length + stdout.length)
  signed (first + stderr.length)

/-! ## Doubling -/

theorem signed_ok {n : Int} (hlow : 0 ≤ n) (h : n < 2 ^ 31) : signed n = .ok n := by
  rw [signed, if_pos ⟨by omega, h⟩]

theorem bind_ok {α β : Type} {x : Except Fault α} {value : α} (h : x = .ok value)
    (f : α → Except Fault β) : (x >>= f) = f value := by
  rw [h]
  rfl

namespace OutputBuffer

theorem pow_succ_le {k : Nat} (h : k < 30) : (2 : Int) ^ (k + 1) ≤ 2 ^ 30 :=
  pow_le_pow_right₀ (by decide) h

/-- Doubling a power of two comes to one that is enough, if `2 ^ 30` is. -/
theorem nextCapacity_ok {needed : Int} (hneeded : needed ≤ 2 ^ 30) {n k : Nat} (hk : k ≤ 30)
    (hn : 30 < n + k) :
    ∃ j, j ≤ 30 ∧ nextCapacity needed n (2 ^ k) = .ok (2 ^ j) ∧ needed ≤ 2 ^ j := by
  induction n generalizing k with
  | zero => omega
  | succ n ih =>
      rw [nextCapacity]
      split_ifs with hless
      · have hlt : k < 30 := by
          by_contra hge
          have heq : k = 30 := by omega
          rw [heq] at hless
          omega
        have hpow := pow_succ_le hlt
        have hpositive : (0 : Int) ≤ 2 ^ (k + 1) := by positivity
        rw [← pow_succ, signed_ok hpositive (by omega)]
        exact ih hlt (by omega)
      · exact ⟨k, hk, rfl, by omega⟩

/-- It leaves the range before it comes to more than `2 ^ 30`. -/
theorem nextCapacity_overflow {needed : Int} (hneeded : 2 ^ 30 < needed) {n k : Nat} (hk : k ≤ 30)
    (hn : 30 < n + k) : nextCapacity needed n (2 ^ k) = .error .overflow := by
  induction n generalizing k with
  | zero => omega
  | succ n ih =>
      have hle : (2 : Int) ^ k ≤ 2 ^ 30 := pow_le_pow_right₀ (by decide) hk
      rw [nextCapacity, if_pos (by omega), ← pow_succ]
      by_cases hlt : k < 30
      · have hpow := pow_succ_le hlt
        have hpositive : (0 : Int) ≤ 2 ^ (k + 1) := by positivity
        rw [signed_ok hpositive (by omega)]
        exact ih hlt (by omega)
      · have heq : k = 30 := by omega
        rw [heq]
        rfl

/-! ## Appending -/

/-- What a buffer with these bytes is like: its length is theirs and within its capacity, which is
nothing or a power of two. The powers go up to the greatest one that 32 bits can hold. -/
structure Holds (buffer : OutputBuffer) (bytes : List UInt8) : Prop where
  contents : buffer.contents.getD [] = bytes
  length : buffer.length = bytes.length
  fits : buffer.length ≤ buffer.capacity
  capacity : buffer = empty ∨ buffer.contents.isSome ∧ ∃ k, k ≤ 30 ∧ buffer.capacity = 2 ^ k

theorem holds_empty : Holds empty [] := ⟨rfl, rfl, Int.le_refl 0, .inl rfl⟩

variable {buffer : OutputBuffer} {bytes chunk : List UInt8}

/-- The capacity that the doubling starts from is a power of two, at most `2 ^ 30`. -/
theorem Holds.start (h : Holds buffer bytes) :
    buffer.capacity ≤ 2 ^ 30 ∧
      ∃ k, k ≤ 30 ∧ (if buffer.capacity = 0 then 4096 else buffer.capacity) = 2 ^ k := by
  rcases h.capacity with rfl | ⟨-, k, hk, hcapacity⟩
  · exact ⟨by decide, 12, by decide, rfl⟩
  · have hpositive : (0 : Int) < 2 ^ k := by positivity
    refine ⟨?_, k, hk, ?_⟩
    · rw [hcapacity]
      exact pow_le_pow_right₀ (by decide) hk
    · rw [if_neg (by omega), hcapacity]

theorem copy_ok (h : buffer.length = bytes.length)
    (hfits : buffer.length + chunk.length ≤ buffer.capacity)
    (hcapacity : buffer.capacity ≤ 2 ^ 30) :
    copy buffer bytes chunk = .ok { buffer with
      contents := some (bytes ++ chunk), length := buffer.length + chunk.length } := by
  rw [copy, if_pos hfits, signed_ok (by omega) (by omega)]
  rfl

theorem mulpAppend_ok (h : Holds buffer bytes) (hchunk : 1 ≤ chunk.length)
    (htotal : bytes.length + chunk.length ≤ 2 ^ 30) :
    ∃ next, mulpAppend (fun _ => true) buffer chunk = .ok next ∧ Holds next (bytes ++ chunk) ∧
      next.contents.isSome := by
  obtain ⟨hle, k, hk, hstart⟩ := h.start
  have hlength := h.length
  have hfits := h.fits
  rw [mulpAppend, signed_ok (by omega) (by omega)]
  show ∃ next, (if buffer.capacity < buffer.length + chunk.length then _ else _) = _ ∧ _
  by_cases hless : buffer.capacity < buffer.length + chunk.length
  · obtain ⟨j, hj, hnext, hneeded⟩ := @nextCapacity_ok (buffer.length + chunk.length)
      (by omega) 32 k hk (by omega)
    have hj' : (2 : Int) ^ j ≤ 2 ^ 30 := pow_le_pow_right₀ (by decide) hj
    rw [if_pos hless, hstart, hnext]
    show ∃ next, copy { buffer with capacity := 2 ^ j } (buffer.contents.getD []) chunk = _ ∧ _
    rw [h.contents, @copy_ok { buffer with capacity := 2 ^ j } _ _ hlength hneeded hj']
    refine ⟨_, rfl, ⟨rfl, ?_, hneeded, .inr ⟨rfl, j, hj, rfl⟩⟩, rfl⟩
    rw [hlength, List.length_append, Nat.cast_add]
  · -- there is room, so the buffer is not the empty one
    rw [if_neg hless]
    rcases h.capacity with rfl | ⟨hsome, hpower⟩
    · simp only [empty] at hless
      omega
    · obtain ⟨old, hold⟩ := Option.isSome_iff_exists.mp hsome
      have hbytes : old = bytes := by
        rw [← h.contents, hold]
        rfl
      rw [hold]
      dsimp only
      rw [hbytes, copy_ok hlength (by omega) hle]
      refine ⟨_, rfl, ⟨rfl, ?_, by simpa using hless, .inr ⟨rfl, hpower⟩⟩, rfl⟩
      rw [hlength, List.length_append, Nat.cast_add]

theorem mulpAppend_overflow (h : Holds buffer bytes) (hchunk : chunk.length ≤ 4096)
    (htotal : 2 ^ 30 < bytes.length + chunk.length) :
    mulpAppend (fun _ => true) buffer chunk = .error .overflow := by
  obtain ⟨hle, k, hk, hstart⟩ := h.start
  have hlength := h.length
  have hfits := h.fits
  have hnext := @nextCapacity_overflow (buffer.length + chunk.length) (by omega) 32 k hk (by omega)
  rw [mulpAppend, signed_ok (by omega) (by omega)]
  show (if buffer.capacity < buffer.length + chunk.length then _ else _) = _
  rw [if_pos (by omega), hstart, hnext]
  rfl

/-! ## Reading a file -/

theorem Holds.le (h : Holds buffer bytes) : bytes.length ≤ 2 ^ 30 := by
  have hlength := h.length
  have hfits := h.fits
  have hle := h.start.1
  omega

theorem mulpReadFile_ok {chunks : List (List UInt8)} (hchunks : ∀ chunk ∈ chunks, 1 ≤ chunk.length)
    (h : Holds buffer bytes) (htotal : bytes.length + chunks.flatten.length ≤ 2 ^ 30) :
    ∃ final, mulpReadFile (fun _ => true) buffer chunks = .ok final ∧
      Holds final (bytes ++ chunks.flatten) := by
  induction chunks generalizing buffer bytes with
  | nil =>
      refine ⟨buffer, rfl, ?_⟩
      rw [List.flatten_nil, List.append_nil]
      exact h
  | cons chunk rest ih =>
      obtain ⟨hchunk, hrest⟩ := List.forall_mem_cons.mp hchunks
      rw [List.flatten_cons, List.length_append] at htotal
      obtain ⟨next, hnext, hholds, hsome⟩ := mulpAppend_ok h hchunk (by omega)
      obtain ⟨old, hold⟩ := Option.isSome_iff_exists.mp hsome
      rw [mulpReadFile, hnext, List.flatten_cons, ← List.append_assoc]
      show ∃ final, (match next.contents with
        | some _ => mulpReadFile (fun _ => true) next rest
        | none => .ok next) = _ ∧ _
      rw [hold]
      apply ih hrest hholds
      rw [List.length_append]
      omega

theorem mulpReadFile_overflow {chunks : List (List UInt8)}
    (hchunks : ∀ chunk ∈ chunks, 1 ≤ chunk.length ∧ chunk.length ≤ 4096) (h : Holds buffer bytes)
    (htotal : 2 ^ 30 < bytes.length + chunks.flatten.length) :
    mulpReadFile (fun _ => true) buffer chunks = .error .overflow := by
  induction chunks generalizing buffer bytes with
  | nil =>
      have hle := h.le
      rw [List.flatten_nil, List.length_nil] at htotal
      omega
  | cons chunk rest ih =>
      obtain ⟨⟨hmin, hmax⟩, hrest⟩ := List.forall_mem_cons.mp hchunks
      rw [List.flatten_cons, List.length_append] at htotal
      rw [mulpReadFile]
      by_cases hover : 2 ^ 30 < bytes.length + chunk.length
      · rw [mulpAppend_overflow h hmax hover]
        rfl
      · obtain ⟨next, hnext, hholds, hsome⟩ := mulpAppend_ok h hmin (by omega)
        obtain ⟨old, hold⟩ := Option.isSome_iff_exists.mp hsome
        rw [hnext]
        show (match next.contents with
          | some _ => mulpReadFile (fun _ => true) next rest
          | none => .ok next) = _
        rw [hold]
        apply ih hrest hholds
        rw [List.length_append]
        omega

/-- After every chunk the buffer is what the chunks so far make of it, and none of the sums and
products on the way has left its range. -/
def GrowsWell (chunks : List (List UInt8)) : Prop :=
  ∀ k, ∃ buffer, mulpReadFile (fun _ => true) empty (chunks.take k) = .ok buffer ∧
    buffer.contents.getD [] = (chunks.take k).flatten ∧
    buffer.length = (chunks.take k).flatten.length ∧ buffer.length ≤ buffer.capacity

theorem growsWell_iff {chunks : List (List UInt8)}
    (hchunks : ∀ chunk ∈ chunks, 1 ≤ chunk.length ∧ chunk.length ≤ 4096) :
    GrowsWell chunks ↔ chunks.flatten.length ≤ 2 ^ 30 := by
  constructor
  · intro h
    by_contra hover
    obtain ⟨buffer, hbuffer, -⟩ := h chunks.length
    rw [List.take_length, mulpReadFile_overflow hchunks holds_empty
      (by rw [List.length_nil]; omega)] at hbuffer
    cases hbuffer
  · intro htotal k
    have hle : (chunks.take k).flatten.length ≤ chunks.flatten.length :=
      ((List.take_sublist k chunks).flatten).length_le
    have htake : ([] : List UInt8).length + (chunks.take k).flatten.length ≤ 2 ^ 30 := by
      rw [List.length_nil]
      omega
    obtain ⟨buffer, hbuffer, hholds⟩ := mulpReadFile_ok
      (fun chunk hchunk => (hchunks chunk (List.mem_of_mem_take hchunk)).1) holds_empty htake
    exact ⟨buffer, hbuffer, hholds.contents, hholds.length, hholds.fits⟩

end OutputBuffer

theorem frameLength_ok {lead stdout stderr : List UInt8}
    (h : lead.length + stdout.length + stderr.length < 2 ^ 31) :
    frameLength lead stdout stderr = .ok (lead.length + stdout.length + stderr.length) := by
  have hfirst : signed (lead.length + stdout.length) = .ok (lead.length + stdout.length) :=
    signed_ok (by omega) (by omega)
  have hsecond : signed (lead.length + stdout.length + stderr.length) =
      .ok (lead.length + stdout.length + stderr.length) := signed_ok (by omega) (by omega)
  exact (bind_ok hfirst _).trans hsecond

theorem outputBuffer_iff (chunks : List (List UInt8))
    (hchunks : ∀ chunk ∈ chunks, 1 ≤ chunk.length ∧ chunk.length ≤ 4096) :
    (OutputBuffer.GrowsWell chunks ↔ chunks.flatten.length ≤ 2 ^ 30) ∧
      ∀ lead stdout stderr : List UInt8, lead.length + stdout.length + stderr.length < 2 ^ 31 →
        frameLength lead stdout stderr = .ok (lead.length + stdout.length + stderr.length) :=
  ⟨OutputBuffer.growsWell_iff hchunks, fun _ _ _ => frameLength_ok⟩

/-- An output of a gigabyte and a bit, in full chunks. -/
def gigabyte : List (List UInt8) := List.replicate (2 ^ 18 + 1) (List.replicate 4096 0)

theorem gigabyte_overflows : (∀ chunk ∈ gigabyte, 1 ≤ chunk.length ∧ chunk.length ≤ 4096) ∧
    gigabyte.flatten.length < 2 ^ 31 ∧ ¬ OutputBuffer.GrowsWell gigabyte := by
  have hchunks : ∀ chunk ∈ gigabyte, 1 ≤ chunk.length ∧ chunk.length ≤ 4096 := by
    intro chunk hchunk
    rw [List.eq_of_mem_replicate hchunk, List.length_replicate]
    omega
  have htotal : gigabyte.flatten.length = (2 ^ 18 + 1) * 4096 := by
    rw [gigabyte, List.length_flatten, List.map_replicate, List.sum_replicate_nat,
      List.length_replicate]
  refine ⟨hchunks, ?_, ?_⟩
  · rw [htotal]
    omega
  · rw [OutputBuffer.growsWell_iff hchunks, htotal]
    omega

theorem outputBuffer_two : OutputBuffer.GrowsWell [[104, 105], [10]] :=
  (outputBuffer_iff [[104, 105], [10]] (by decide)).1.mpr (by decide)

end Mulp.Platform
