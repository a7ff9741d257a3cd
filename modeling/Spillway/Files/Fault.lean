/-!
# Why files cannot be used
-/

namespace Spillway

/-- What was being done with a file. -/
inductive FileAccess where
  | opening
  | reading
  deriving DecidableEq, Repr

/-- The wording of an access. -/
def FileAccess.text : FileAccess → String
  | opening => "open"
  | reading => "read"

/-- Why a file cannot be used. -/
inductive FileFault where
  /-- There is nothing of this name. -/
  | notFound
  /-- A name on the way is that of a file. -/
  | notDirectory
  /-- There is a directory where a file is needed. -/
  | isDirectory
  /-- A name or the whole path is too long. -/
  | nameTooLong
  /-- The name holds a character that no name can hold. -/
  | badName
  deriving DecidableEq, Repr

/-- The wording of a fault. -/
def FileFault.message : FileFault → String
  | notFound => "no such file or directory"
  | notDirectory => "not a directory"
  | isDirectory => "is a directory"
  | nameTooLong => "file name too long"
  | badName => "invalid argument"

end Spillway
