import ContentVault.Bytes

/-!
# Errors

Three kinds of error wrap one another: failures of input and output, failures of
a store, and failures of the library itself.  Each is recorded by its cause, and
`message` says in words what happened.

A failure of input and output may carry an error of the library, so that such an
error passes unharmed through a byte stream (`VaultError.toStream`) and can be
recovered at its end (`VaultError.ofStream`).  A call that panics ends without any of
them (`Failure.panicked`).
-/

namespace ContentVault

inductive IoKind where
  | notFound
  | permissionDenied
  | connectionRefused
  | connectionReset
  | brokenPipe
  | alreadyExists
  | wouldBlock
  | notADirectory
  | isADirectory
  | invalidInput
  | invalidData
  | invalidFilename
  | timedOut
  | interrupted
  | unexpectedEof
  | other
  deriving DecidableEq, Repr

def IoKind.description : IoKind → String
  | .notFound => "entity not found"
  | .permissionDenied => "permission denied"
  | .connectionRefused => "connection refused"
  | .connectionReset => "connection reset"
  | .brokenPipe => "broken pipe"
  | .alreadyExists => "entity already exists"
  | .wouldBlock => "operation would block"
  | .notADirectory => "not a directory"
  | .isADirectory => "is a directory"
  | .invalidInput => "invalid input parameter"
  | .invalidData => "invalid data"
  | .invalidFilename => "invalid filename"
  | .timedOut => "timed out"
  | .interrupted => "operation interrupted"
  | .unexpectedEof => "unexpected end of file"
  | .other => "other error"

inductive FileFailure where
  | noSuchFile
  | fileExists
  | notADirectory
  | isADirectory
  | nameTooLong
  | nulInPath
  deriving DecidableEq, Repr

def FileFailure.kind : FileFailure → IoKind
  | .noSuchFile => .notFound
  | .fileExists => .alreadyExists
  | .notADirectory => .notADirectory
  | .isADirectory => .isADirectory
  | .nameTooLong => .invalidFilename
  | .nulInPath => .invalidInput

def FileFailure.message : FileFailure → String
  | .noSuchFile => "No such file or directory (os error 2)"
  | .fileExists => "File exists (os error 17)"
  | .notADirectory => "Not a directory (os error 20)"
  | .isADirectory => "Is a directory (os error 21)"
  | .nameTooLong => "File name too long (os error 36)"
  | .nulInPath => "file name contained an unexpected NUL byte"

/-- Why a text in JSON was refused: it is not well-formed, it is not what its
place calls for, or it ends too soon. -/
inductive JsonFault where
  | malformed
  | mismatched
  | truncated
  deriving DecidableEq, Repr

/-- Why a sequence of chunks is not the value that its manifest records. -/
inductive Corruption where
  | unterminated
  | zeroChunkSize
  | missingChunk (index chunks : UInt64)
  | wrongChunkLength (index : UInt64) (held : Nat) (chunkSize : UInt64)
  | wrongTotal (chunks delivered length : UInt64)
  | described (reason : String)
  deriving DecidableEq, Repr

def Corruption.reason : Corruption → String
  | .unterminated => "chunks present without a terminator"
  | .zeroChunkSize => "manifest records a zero chunk size"
  | .missingChunk index chunks => s!"chunk {index.toNat} of {chunks.toNat} is missing"
  | .wrongChunkLength index held chunkSize =>
    s!"chunk {index.toNat} holds {held} bytes, chunk size is {chunkSize.toNat}"
  | .wrongTotal chunks delivered length =>
    s!"{chunks.toNat} chunks hold {delivered.toNat} bytes, manifest records {length.toNat}"
  | .described reason => reason

mutual

inductive IoError where
  | plain (kind : IoKind)
  | described (kind : IoKind) (text : String)
  | file (failure : FileFailure)
  | carrying (kind : IoKind) (error : VaultError)

inductive StorageError where
  | io (error : IoError)
  | notFound (key : String)
  | manifest (fault : JsonFault)
  | engine

/-- A failure of the library. -/
inductive VaultError where
  | backendUnavailable (source : StorageError)
  | corruptChunkSequence (key : String) (corruption : Corruption)
  | chunkCommitFailed (index : UInt64) (source : StorageError)
  | writerFailed (index : UInt64)
  | digestNotCloneable (algorithm : String)
  | fixityCheckFailed (error : IoError)
  | io (error : IoError)

end

mutual

def IoError.message : IoError → String
  | .plain kind => kind.description
  | .described _ text => text
  | .file failure => failure.message
  | .carrying _ error => error.message

/-- Of an unreadable manifest and of a failing storage engine the message gives
the beginning only; the detail is the reader's or the engine's own. -/
def StorageError.message : StorageError → String
  | .io error => "I/O error: " ++ error.message
  | .notFound key => s!"no value stored under `{key}`"
  | .manifest _ => "unreadable chunk manifest: "
  | .engine => "storage engine error: "

def VaultError.message : VaultError → String
  | .backendUnavailable source => "backend unavailable: " ++ source.message
  | .corruptChunkSequence key corruption =>
    s!"corrupt chunk sequence under `{key}`: {corruption.reason}"
  | .chunkCommitFailed index source =>
    s!"failed to commit chunk {index.toNat}: " ++ source.message
  | .writerFailed index => s!"write rejected, chunk {index.toNat} failed to commit"
  | .digestNotCloneable algorithm => s!"digest `{algorithm}` cannot be cloned"
  | .fixityCheckFailed error => "fixity check failed: " ++ error.message
  | .io error => "I/O error: " ++ error.message

end

mutual

/-- Whether the message breaks off where a foreign detail would follow. -/
def IoError.breaksOff : IoError → Bool
  | .carrying _ error => error.breaksOff
  | _ => false

def StorageError.breaksOff : StorageError → Bool
  | .io error => error.breaksOff
  | .notFound _ => false
  | .manifest _ => true
  | .engine => true

def VaultError.breaksOff : VaultError → Bool
  | .backendUnavailable source => source.breaksOff
  | .chunkCommitFailed _ source => source.breaksOff
  | .fixityCheckFailed error => error.breaksOff
  | .io error => error.breaksOff
  | _ => false

end

namespace IoError

def kind : IoError → IoKind
  | .plain kind => kind
  | .described kind _ => kind
  | .file failure => failure.kind
  | .carrying kind _ => kind

/-- The error of the library inside a failure. -/
def carried? : IoError → Option VaultError
  | .carrying _ error => some error
  | _ => none

/-- Whether the operation was merely interrupted and is to be tried again. -/
def isInterrupted (error : IoError) : Bool :=
  error.kind = .interrupted

end IoError

namespace VaultError

/-- The form in which an error travels through a byte stream. -/
def toStream : VaultError → IoError
  | .io error => error
  | error => .carrying .other error

/-- The error that came through a byte stream. -/
def ofStream (error : IoError) : VaultError :=
  match error.carried? with
  | some carried => carried
  | none => .io error

/-- An error that is not itself a failure of input or output survives its way
through a stream. -/
theorem ofStream_toStream (error : VaultError) (hplain : ∀ inner, error ≠ .io inner) :
    ofStream error.toStream = error := by
  cases error with
  | io inner => exact absurd rfl (hplain inner)
  | _ => rfl

end VaultError

/-- Why a call comes to nothing: it reports an error to its caller, or it panics, and then no caller
gets anything from it. -/
inductive Failure (ε : Type) where
  | reported (error : ε)
  | panicked

end ContentVault
