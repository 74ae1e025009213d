import Mulp.Lib.Forest
import Mulp.Platform.OutputBuffer
import Mulp.VinylFs.Src

/-! The native walk that discovers the paths below a directory (`vinyl_fs/vinyl_fs_stub.c`,
`vinyl_fs/src.mbt`), on bytes.

The system gives the entries of a directory in an order of its own. -/
namespace Mulp.VinylFs.Native

open Mulp.Text Mulp.Platform

/-! ## The buffer -/

/-- The loop of `mulp_vinyl_fs_buffer_append`, for at most `n` turns. -/
def nextCapacity (needed : Nat) : Nat → Nat → Nat
  | 0, capacity => capacity
  | n + 1, capacity => if capacity < needed then nextCapacity needed n (capacity * 2) else capacity

/-- As many turns as bytes are enough. -/
theorem le_nextCapacity {needed n capacity : Nat} (hcapacity : 0 < capacity)
    (h : needed ≤ capacity + n) : needed ≤ nextCapacity needed n capacity := by
  induction n generalizing capacity with
  | zero => exact h
  | succ n ih =>
      rw [nextCapacity]
      split_ifs with hless
      · exact ih (by omega) (by omega)
      · omega

/-- A `MulpVinylFsBuffer`, by the bytes written to it; `length` is their number. There is room
for the null byte behind them. -/
structure Buffer where
  data : List UInt8
  capacity : Nat
  fits : data = [] ∨ data.length + 1 ≤ capacity

def Buffer.empty : Buffer := ⟨[], 0, .inl rfl⟩

/-- `mulp_vinyl_fs_buffer_append`, where `realloc` is asked for a size. -/
def Buffer.append (realloc : Nat → Bool) (buffer : Buffer) (text : List UInt8) : Bool × Buffer :=
  let needed := buffer.data.length + text.length + 1
  if hless : buffer.capacity < needed then
    let start := if buffer.capacity = 0 then 256 else buffer.capacity
    if realloc (nextCapacity needed needed start) then
      (true, ⟨buffer.data ++ text, nextCapacity needed needed start, .inr (by
        have hstart : 0 < start := by
          simp only [start]
          split_ifs <;> omega
        rw [List.length_append]
        exact le_nextCapacity hstart (Nat.le_add_left _ _))⟩)
    else (false, buffer)
  else
    (true, ⟨buffer.data ++ text, buffer.capacity, .inr (by
      rw [List.length_append]
      omega)⟩)

/-- Where `realloc` grants what it is asked for, the text is behind the bytes. -/
theorem Buffer.append_granted {realloc : Nat → Bool} (h : ∀ size, realloc size = true)
    (buffer : Buffer) (text : List UInt8) :
    ∃ next, buffer.append realloc text = (true, next) ∧ next.data = buffer.data ++ text := by
  unfold append
  dsimp only
  split
  · rw [if_pos (h _)]
    exact ⟨_, rfl, rfl⟩
  · exact ⟨_, rfl, rfl⟩

/-- `mulp_vinyl_fs_buffer_to_bytes`; the length has to be one of 32 bits. -/
def Buffer.toBytes (buffer : Buffer) : Except Fault (List UInt8) := do
  let _ ← signed buffer.data.length
  .ok buffer.data

theorem Buffer.toBytes_eq (buffer : Buffer) :
    buffer.toBytes = if buffer.data.length < 2 ^ 31 then .ok buffer.data else .error .overflow := by
  unfold toBytes
  by_cases h : buffer.data.length < 2 ^ 31
  · rw [signed_ok (by omega) (by omega), if_pos h]
    rfl
  · rw [signed, if_neg (by omega), if_neg h]
    rfl

/-! ## The walk -/

/-- The types that `lstat` tells apart. -/
inductive FileType where
  | regular
  | directory
  | symlink
  | other
  deriving DecidableEq

/-- What the walk asks the system for: the names that `readdir` gives one after the other, the
type of a file, and its limits. -/
structure System where
  opendir : List UInt8 → Option (List (List UInt8))
  lstat : List UInt8 → Option FileType
  realloc : Nat → Bool
  pathMax : Nat
  /-- How many directories can be open at a time. -/
  openMax : Nat

/-- `/`, `.` and the line feed. -/
def slash : UInt8 := 0x2F
def dot : UInt8 := 0x2E
def lineFeed : UInt8 := 0x0A

/-- The separator of `mulp_vinyl_fs_join`. -/
def separator (left : List UInt8) : List UInt8 := if left.getLast? = some slash then [] else [slash]

/-- `mulp_vinyl_fs_join`, into an array of a size. -/
def join (outSize : Nat) (left right : List UInt8) : Option (List UInt8) :=
  let out := left ++ separator left ++ right
  if out.length < outSize then some out else none

def dirPath (s : System) (root rel : List UInt8) : Option (List UInt8) :=
  if rel = [] then if root.length < s.pathMax then some root else none
  else join s.pathMax root rel

def childRel (s : System) (rel name : List UInt8) : Option (List UInt8) :=
  if rel = [] then if name.length < s.pathMax then some name else none
  else join s.pathMax rel name

/-- `child_rel` and `child_abs`. -/
def childPaths (s : System) (root rel name : List UInt8) : Option (List UInt8 × List UInt8) := do
  let childRel ← childRel s rel name
  let childAbs ← join s.pathMax root childRel
  some (childRel, childAbs)

/-- The two calls of `mulp_vinyl_fs_buffer_append` for an entry. -/
def appendLine (realloc : Nat → Bool) (buffer : Buffer) (text : List UInt8) : Bool × Buffer :=
  match buffer.append realloc text with
  | (false, buffer) => (false, buffer)
  | (true, buffer) => buffer.append realloc [lineFeed]

theorem appendLine_granted {realloc : Nat → Bool} (h : ∀ size, realloc size = true)
    (buffer : Buffer) (text : List UInt8) :
    ∃ next, appendLine realloc buffer text = (true, next) ∧
      next.data = buffer.data ++ (text ++ [lineFeed]) := by
  obtain ⟨between, hbetween, hdata⟩ := buffer.append_granted h text
  obtain ⟨next, hnext, hdata'⟩ := between.append_granted h [lineFeed]
  refine ⟨next, ?_, ?_⟩
  · rw [appendLine, hbetween]
    exact hnext
  · rw [hdata', hdata, List.append_assoc]

/-- The loop of `mulp_vinyl_fs_walk` over the names that `readdir` gives. Of the types only a
directory is `S_ISDIR` and not `S_ISLNK`. -/
def walkEntries (s : System) (root rel : List UInt8) (walk : List UInt8 → Buffer → Bool × Buffer) :
    List (List UInt8) → Buffer → Bool × Buffer
  | [], buffer => (true, buffer)
  | name :: names, buffer =>
      if name = [dot] ∨ name = [dot, dot] then walkEntries s root rel walk names buffer
      else
        match childPaths s root rel name with
        | none => (false, buffer)
        | some (childRel, childAbs) =>
            match appendLine s.realloc buffer childRel with
            | (false, buffer) => (false, buffer)
            | (true, buffer) =>
                match (if s.lstat childAbs = some .directory then walk childRel buffer
                  else (true, buffer)) with
                | (false, buffer) => (false, buffer)
                | (true, buffer) => walkEntries s root rel walk names buffer

/-- The directory itself and its parent are passed over. -/
theorem walkEntries_filter (s : System) (root rel : List UInt8)
    (walk : List UInt8 → Buffer → Bool × Buffer) (names : List (List UInt8)) (buffer : Buffer) :
    walkEntries s root rel walk names buffer =
      walkEntries s root rel walk
        (names.filter fun name => ¬ (name = [dot] ∨ name = [dot, dot])) buffer := by
  induction names generalizing buffer with
  | nil => rfl
  | cons name names ih =>
      by_cases hdots : name = [dot] ∨ name = [dot, dot]
      · rw [walkEntries, if_pos hdots, List.filter_cons_of_neg (by simp [hdots])]
        exact ih buffer
      · rw [List.filter_cons_of_pos (by simpa using hdots), walkEntries, walkEntries, if_neg hdots,
          if_neg hdots]
        simp only [ih]

/-- `mulp_vinyl_fs_walk`, while so many more directories can be open: without one `opendir`
fails. -/
def walk (s : System) (root : List UInt8) : Nat → List UInt8 → Buffer → Bool × Buffer
  | 0, rel, buffer =>
      match dirPath s root rel with
      | none => (false, buffer)
      | some _ => (true, buffer)
  | n + 1, rel, buffer =>
      match dirPath s root rel with
      | none => (false, buffer)
      | some path =>
          match s.opendir path with
          | none => (true, buffer)
          | some names => walkEntries s root rel (walk s root n) names buffer

/-- Bytes as a native call reads them, up to a null byte. -/
def cBytes (bytes : List UInt8) : List UInt8 := bytes.takeWhile (· ≠ 0)

/-- `mulp_vinyl_fs_discover_paths`. -/
def discoverPathsBytes (s : System) (root : List UInt8) : Except Fault (List UInt8) :=
  (walk s (cBytes root) s.openMax [] .empty).2.toBytes

def discoveredPaths (s : System) (root : String) : Except Fault (List String) := do
  let bytes ← discoverPathsBytes s (Utf8.encode root.toList)
  let encoded := String.ofList (Utf8.decodeLossy bytes)
  .ok ((splitLines encoded).filter (· ≠ ""))

end Mulp.VinylFs.Native
