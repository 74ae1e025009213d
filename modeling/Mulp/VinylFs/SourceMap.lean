import Mulp.Stream.FileDest
import Mulp.Vinyl.History

/-! Source maps (`vinyl_fs/sourcemap.mbt`).

The map of a file is written beside it, or into it as a comment with the map in Base64.
Contents that are a stream get the comment as one more chunk. -/
namespace Mulp.VinylFs

open Mulp.Stream Mulp.Text Mulp.Vinyl

def sourcemapJoinPath (dir name : String) : String :=
  if dir = "/" then "/" ++ name
  else if hasSuffix dir "/" then dir ++ name
  else dir ++ "/" ++ name

def sourceMapPath (file : VinylFile Nat Nat) (location : String) : Option String :=
  match file.path with
  | none => none
  | some path =>
      let mapName := file.basename ++ ".map"
      if location = "." || location = "" then some (path ++ ".map")
      else if hasPrefix location "/" then some (sourcemapJoinPath location mapName)
      else some (sourcemapJoinPath (sourcemapJoinPath file.dirname location) mapName)

/-- `base64_digit`, for a value below 64. -/
def base64Digit (value : Nat) : String :=
  let table := "ABCDEFGHIJKLMNOPQRSTUVWXYZabcdefghijklmnopqrstuvwxyz0123456789+/"
  String.ofList ((table.toList.drop value).take 1)

def base64Encode : Bytes → String
  | [] => ""
  | [first] =>
      base64Digit (first.toNat / 4) ++ base64Digit (first.toNat % 4 * 16) ++ "=" ++ "="
  | [first, second] =>
      base64Digit (first.toNat / 4) ++ base64Digit (first.toNat % 4 * 16 + second.toNat / 16) ++
        base64Digit (second.toNat % 16 * 4) ++ "="
  | first :: second :: third :: rest =>
      base64Digit (first.toNat / 4) ++ base64Digit (first.toNat % 4 * 16 + second.toNat / 16) ++
        base64Digit (second.toNat % 16 * 4 + third.toNat / 64) ++ base64Digit (third.toNat % 64) ++
        base64Encode rest

def inlineSourceMapComment (sourceMap : String) : String :=
  "\n//# sourceMappingURL=data:application/json;charset=utf-8;base64," ++
    base64Encode (utf8Encode sourceMap)

def appendStreamFooter (stream : Nat) (footer : Bytes) (st : Store) : Nat × Store :=
  st.addStream (.footer stream footer false)

def inlineSourceMapFile (file : VinylFile Nat Nat) (st : Store) : VinylFile Nat Nat × Store :=
  match file.sourceMap with
  | none => (file, st)
  | some sourceMap =>
      let footer := utf8Encode (inlineSourceMapComment sourceMap)
      match file.contents with
      | .buffer bytes => file.withContents (.buffer (bytes ++ footer)) st
      | .stream stream =>
          let (stream, st) := appendStreamFooter stream footer st
          file.withContents (.stream stream) st
      | .null => (file, st)

def sourceMapFile (file : VinylFile Nat Nat) (location : String) (st : Store) :
    Option (VinylFile Nat Nat) × Store :=
  match file.sourceMap with
  | none => (none, st)
  | some sourceMap =>
      match sourceMapPath file location with
      | none => (none, st)
      | some path =>
          let args : VinylFileArgs := {
            cwd := file.cwd
            base := file.base
            path := some path
            contents := .buffer (utf8Encode sourceMap) }
          (vinylFile args st).map some id

end Mulp.VinylFs
