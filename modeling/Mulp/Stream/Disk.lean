import Mulp.Stream.ByteStream

/-! The native calls that write to the disk (`stream/file_reader_stub.c`,
`vinyl_fs/vinyl_fs_stub.c`).

The disk is seen through the paths that calls are made with. Several of them can lead
to one file, and whether a call succeeds can depend on the calls before it: a path below
a file that has been written has no parents. An open file takes every byte written to
it. -/
namespace Mulp.Stream

/-- A call that creates or modifies what there is at a path. -/
inductive Access where
  | openWriter (path : String)
  | writeFile (path : String)
  | makeDirectory (path : String)
  | makeSymlink (target path : String)
  | chmod (path : String) (mode : Int)
  | setMtime (path : String) (mtimeMs : Int)
  deriving DecidableEq

def Access.path : Access → String
  | .openWriter path => path
  | .writeFile path => path
  | .makeDirectory path => path
  | .makeSymlink _ path => path
  | .chmod path _ => path
  | .setMtime path _ => path

/-- `read` is what a regular file has in it, `stat` and `lstat` say whether those
calls succeed, `succeeds` whether the parents can be made and the access be had after
other accesses. The accesses made are recorded. `place` tells paths apart that lead to
different files. -/
structure Disk where
  read : String → Option Bytes
  stat : String → Bool
  lstat : String → Bool
  succeeds : List Access → Access → Bool
  accesses : List Access
  place : String → String

/-- A native writer: one whose file is `NULL`, one that is `skipped`, or one on
an open file. -/
inductive Writer where
  | failed
  | skipped
  | opened (path : String)
  deriving DecidableEq

namespace Disk

/-- Whether an access succeeds now. It may depend on the accesses before it, and the disk answers so
at once for the parents that a write makes. -/
def grants (d : Disk) (a : Access) : Bool := d.succeeds d.accesses a

/-- An access, and whether it succeeds. -/
def access (d : Disk) (a : Access) : Bool × Disk :=
  (d.grants a, { d with accesses := d.accesses ++ [a] })

/-- A regular file with these bytes at the path, and at every path that leads there. -/
def put (d : Disk) (path : String) (bytes : Bytes) : Disk :=
  { d with
    read := fun other => if d.place other = d.place path then some bytes else d.read other
    stat := fun other => if d.place other = d.place path then true else d.stat other
    lstat := fun other => if d.place other = d.place path then true else d.lstat other }

/-- `fopen` in the mode `ab` or `wb`, after the parents have been made. -/
def openFile (d : Disk) (path : String) (append : Bool) : Writer × Disk :=
  match d.access (.openWriter path) with
  | (true, d) => (.opened path, d.put path (if append then (d.read path).getD [] else []))
  | (false, d) => (.failed, d)

/-- `mulp_vinyl_fs_open_dest_writer`. -/
def openDestWriter (d : Disk) (path : String) (append overwrite : Bool) : Writer × Disk :=
  if !overwrite && d.stat path then (.skipped, d) else d.openFile path append

/-- `mulp_open_file_writer`. -/
def openFileWriter (d : Disk) (path : String) : Writer × Disk := d.openFile path false

/-- `mulp_vinyl_fs_dest_writer_write` and `mulp_file_writer_write`. -/
def writerWrite (d : Disk) (writer : Writer) (chunk : Bytes) : Bool × Disk :=
  match writer with
  | .failed => (false, d)
  | .skipped => (true, d)
  | .opened path => (true, d.put path ((d.read path).getD [] ++ chunk))

/-- `mulp_vinyl_fs_dest_writer_close` and `mulp_file_writer_close`. -/
def writerClose (d : Disk) (_writer : Writer) : Bool × Disk := (true, d)

/-- `mulp_write_file_bytes`. -/
def writeFileBytes (d : Disk) (path : String) (contents : Bytes) : Bool × Disk :=
  match d.access (.writeFile path) with
  | (true, d) => (true, d.put path contents)
  | (false, d) => (false, d)

section Put

variable (d : Disk) (path : String) (bytes : Bytes)

theorem put_read (other : String) : (d.put path bytes).read other =
    if d.place other = d.place path then some bytes else d.read other := rfl

@[simp] theorem put_read_self : (d.put path bytes).read path = some bytes := if_pos rfl

@[simp] theorem put_put (more : Bytes) : (d.put path bytes).put path more = d.put path more := by
  have hkeep {β : Type} (f : String → β) (x y : β) :
      (fun other => if d.place other = d.place path then y
        else if d.place other = d.place path then x else f other) =
        fun other => if d.place other = d.place path then y else f other := by
    funext other
    by_cases hplace : d.place other = d.place path
    · rw [if_pos hplace, if_pos hplace]
    · rw [if_neg hplace, if_neg hplace, if_neg hplace]
  show Disk.mk _ _ _ _ _ _ = Disk.mk _ _ _ _ _ _
  rw [Disk.mk.injEq]
  exact ⟨hkeep _ _ _, hkeep _ _ _, hkeep _ _ _, rfl, rfl, rfl⟩

@[simp] theorem put_accesses : (d.put path bytes).accesses = d.accesses := rfl

@[simp] theorem put_succeeds : (d.put path bytes).succeeds = d.succeeds := rfl

@[simp] theorem put_place : (d.put path bytes).place = d.place := rfl

end Put

end Disk

end Mulp.Stream
