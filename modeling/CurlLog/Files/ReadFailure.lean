import CurlLog.Text.Basic

/-!
# Causes of a failed read

Why no text could be read from a path, and the words for it. The numbers in the words are those
of the system's errors.
-/

namespace CurlLog

/-- Why a file could not be read as text. -/
inductive ReadFailure where
  | notFound
  | notADirectory
  | isADirectory
  | nameTooLong
  | invalidUtf8
  | nulInPath
  /-- Another cause, in the words of the system. -/
  | other (words : Text)
deriving DecidableEq, Repr

namespace ReadFailure

/-- The cause in words, with the number of the system's error where it has one. -/
def reason : ReadFailure → Text
  | notFound => "No such file or directory (os error 2)".toList
  | notADirectory => "Not a directory (os error 20)".toList
  | isADirectory => "Is a directory (os error 21)".toList
  | nameTooLong => "File name too long (os error 36)".toList
  | invalidUtf8 => "stream did not contain valid UTF-8".toList
  | nulInPath => "file name contained an unexpected NUL byte".toList
  | other words => words

end ReadFailure

end CurlLog
