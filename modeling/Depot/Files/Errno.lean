/-! Reasons a file system gives for refusing an operation. -/

namespace Depot.Files

inductive Errno where
  | notFound | notDirectory | isDirectory | exists | notEmpty | denied | tooManyLinks | nameTooLong
  | invalid | noDevice | badText
  deriving DecidableEq, Repr

def Errno.reason : Errno → String
  | .notFound => "No such file or directory"
  | .notDirectory => "Not a directory"
  | .isDirectory => "Is a directory"
  | .exists => "File exists"
  | .notEmpty => "Directory not empty"
  | .denied => "Permission denied"
  | .tooManyLinks => "Too many levels of symbolic links"
  | .nameTooLong => "File name too long"
  | .invalid => "Invalid argument"
  | .noDevice => "No such device or address"
  | .badText => "stream did not contain valid UTF-8"

/-- The system's number of a reason, if the reason is one of its own. -/
def Errno.number? : Errno → Option Nat
  | .notFound => some 2
  | .notDirectory => some 20
  | .isDirectory => some 21
  | .exists => some 17
  | .notEmpty => some 39
  | .denied => some 13
  | .tooManyLinks => some 40
  | .nameTooLong => some 36
  | .invalid => some 22
  | .noDevice => some 6
  | .badText => none

def Errno.text (e : Errno) : String :=
  match e.number? with
  | some n => e.reason ++ " (os error " ++ toString n ++ ")"
  | none => e.reason

end Depot.Files
