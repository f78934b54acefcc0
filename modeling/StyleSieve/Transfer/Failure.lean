/-!
# Failures of input and output
-/

namespace StyleSieve.Transfer

/-- What went wrong with a file or a stream. -/
inductive FailureKind where
  | interrupted
  | brokenPipe
  | wouldBlock
  | connectionReset
  | unexpectedEof
  | timedOut
  | notFound
  | writeZero
  | alreadyExists
  | notADirectory
  | isADirectory
  | filesystemLoop
  | invalidData
  | invalidInput
  | invalidFilename
  /-- Any other kind, by its name. -/
  | other (name : String)
  deriving DecidableEq, Repr

/-- A failure, as the system or this library words it. -/
structure Failure where
  kind : FailureKind
  message : String
  deriving DecidableEq, Repr

namespace Failure

/-- Whether an operation that failed this way is simply tried again. -/
def isTransient (f : Failure) : Bool := f.kind == .interrupted

/-- Nothing has this path. -/
def notFound : Failure := ⟨.notFound, "No such file or directory (os error 2)"⟩

/-- Something has this path already. -/
def alreadyExists : Failure := ⟨.alreadyExists, "File exists (os error 17)"⟩

/-- A file stands where a folder is needed. -/
def notADirectory : Failure := ⟨.notADirectory, "Not a directory (os error 20)"⟩

/-- A folder stands where a file is needed. -/
def isADirectory : Failure := ⟨.isADirectory, "Is a directory (os error 21)"⟩

/-- A path leads through too many links. -/
def tooManyLinks : Failure :=
  ⟨.filesystemLoop, "Too many levels of symbolic links (os error 40)"⟩

/-- A folder cannot be removed by the name that it has in itself. -/
def invalidArgument : Failure := ⟨.invalidInput, "Invalid argument (os error 22)"⟩

/-- A name has more bytes than a name may have. -/
def nameTooLong : Failure := ⟨.invalidFilename, "File name too long (os error 36)"⟩

/-- A name holds a null character. -/
def nullInName : Failure := ⟨.invalidInput, "file name contained an unexpected NUL byte"⟩

/-- A file is no text. -/
def notText : Failure := ⟨.invalidData, "stream did not contain valid UTF-8"⟩

/-- A sink took nothing of what a writer had for it. -/
def outputRefused : Failure := ⟨.writeZero, "failed to write rewritten output"⟩

/-- A sink took nothing of what a pipe had for it. -/
def nothingWritten : Failure := ⟨.writeZero, "write zero"⟩

end Failure

end StyleSieve.Transfer
