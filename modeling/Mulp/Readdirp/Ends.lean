import Mulp.Readdirp.Walk

/-! A walk ends, although links lead back: how deep it goes is bounded by how many real
paths there are.

A link is not followed into a directory that is above it, so on the way down a link
always leads to a real path that is not on the way yet. What is no link may be entered
again, but only under a longer real path. So between two links the real paths grow, and
links there are no more than real paths. -/
namespace Mulp.Readdirp

open Chokidar (IsFileName pathText)
open Text

variable {fs : Fs} {root dir name : String} {options : Options} {ancestors reals : List String}
  {place next : Place} {real child : String} {levels levels' : Nat}

/-- These are the real paths of a file system, and that of what is no link is the name under that of
its directory. That is what makes the real paths grow on the way down; of a link nothing is said but
that it leads to one of them. -/
structure Fs.Tree (fs : Fs) (reals : List String) : Prop where
  mem : ∀ {path real}, fs.realPath path = .ok real → real ∈ reals
  idem : ∀ {path real}, fs.realPath path = .ok real → fs.realPath real = .ok real
  child : ∀ {dir name real child}, fs.realPath dir = .ok real → IsFileName name →
    fs.realPath (joinPath dir name) = .ok child → dirIsSymlink fs (joinPath dir name) = .ok false →
    child = joinPath real name

/-- How many real paths the way to a place has not come through. -/
def fresh (reals ancestors : List String) : Nat := reals.countP (· ∉ ancestors)

/-- How many real paths are longer than this one: what is left to go down without a link. -/
def longer (reals : List String) (real : String) : Nat := reals.countP (real.length < ·.length)

variable (hproper : fs.Proper) (htree : fs.Tree reals)

include hproper htree

omit hproper htree

/-! ## What the depth does -/

include hproper htree

omit hproper htree

end Mulp.Readdirp
