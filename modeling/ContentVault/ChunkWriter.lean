import ContentVault.Buffer
import ContentVault.ChunkStore

/-!
# Writing a value as chunks

A writer cuts the bytes it is given into chunks of a fixed size and stores each
as soon as it is full; finishing it stores the last chunk and the manifest.  A
value already under the same key loses its manifest before the first chunk is
stored, and its surplus chunks after the new manifest is stored.
-/

namespace ContentVault

inductive WriterState where
  | writing
  /-- The chunk with that index could not be stored. -/
  | failed (index : UInt64)
  | finished
  deriving DecidableEq, Repr

structure ChunkWriter where
  base : String
  chunkSize : ChunkSize
  /-- The bytes accepted after the last stored chunk. -/
  buffer : Buffer
  /-- How many chunks have been stored. -/
  committed : UInt64
  /-- How many bytes have been accepted. -/
  length : UInt64
  /-- How many chunks the value had that is being replaced. -/
  replaced : UInt64
  state : WriterState
  deriving DecidableEq, Repr

namespace ChunkWriter

/-- Begins a value under a key.  Of a value already there only the number of
chunks is remembered; an unreadable manifest counts as none.  The buffer is asked
for last, when the manifest is gone. -/
def create (base : String) (chunkSize : ChunkSize) (s : ChunkStore) :
    Except (Failure VaultError) ChunkWriter × ChunkStore :=
  let start (replaced : UInt64) (s : ChunkStore) :
      Except (Failure VaultError) ChunkWriter × ChunkStore :=
    match s.remove base with
    | (.error error, s) => (.error (.reported (.backendUnavailable error)), s)
    | (.ok _, s) =>
      if chunkSize.IsAllocatable then
        (.ok ⟨base, chunkSize, .empty, 0, 0, replaced, .writing⟩, s)
      else (.error .panicked, s)
  match s.loadManifest base with
  | (.ok (some previous), s) => start previous.chunks s
  | (.ok none, s) => start 0 s
  | (.error (.manifest _), s) => start 0 s
  | (.error error, s) => (.error (.reported (.backendUnavailable error)), s)

/-- Only a writer that has neither failed nor finished accepts calls. -/
def ensureWriting (w : ChunkWriter) : Except VaultError Unit :=
  match w.state with
  | .writing => .ok ()
  | .failed index => .error (.writerFailed index)
  | .finished => .error (.io (.described .brokenPipe "chunk writer already finished"))

/-- The writer after the chunk or manifest at that index could not be stored. -/
def fail (w : ChunkWriter) (index : UInt64) : ChunkWriter :=
  { w with buffer := .empty, state := .failed index }

def commitChunk (w : ChunkWriter) (s : ChunkStore) :
    Except VaultError Unit × ChunkWriter × ChunkStore :=
  match s.store (chunkKey w.base w.committed) w.buffer.toList with
  | (.error error, s) => (.error (.chunkCommitFailed w.committed error), w.fail w.committed, s)
  | (.ok _, s) => (.ok (), { w with committed := w.committed + 1, buffer := .empty }, s)

def accept (w : ChunkWriter) (data : Bytes) : ChunkWriter :=
  { w with buffer := w.buffer.append data, length := w.length + UInt64.ofNat data.length }

/-- Fills and stores `count` chunks from the bytes and buffers the rest. -/
def fill : Nat → ChunkWriter → Bytes → ChunkStore →
    Except VaultError Unit × ChunkWriter × ChunkStore
  | 0, w, data, s => (.ok (), w.accept data, s)
  | count + 1, w, data, s =>
    let room := w.chunkSize.toNat - w.buffer.size
    match (w.accept (data.take room)).commitChunk s with
    | (.error error, w, s) => (.error error, w, s)
    | (.ok _, w, s) => fill count w (data.drop room) s

def write (w : ChunkWriter) (data : Bytes) (s : ChunkStore) :
    Except VaultError Unit × ChunkWriter × ChunkStore :=
  match w.ensureWriting with
  | .error error => (.error error, w, s)
  | .ok _ => fill ((w.buffer.size + data.length) / w.chunkSize.toNat) w data s

/-- Accepts more bytes as the end of a byte stream, which takes them all or
fails. -/
def writeStream (w : ChunkWriter) (data : Bytes) (s : ChunkStore) :
    Except IoError Nat × ChunkWriter × ChunkStore :=
  match w.write data s with
  | (.error error, w, s) => (.error error.toStream, w, s)
  | (.ok _, w, s) => (.ok data.length, w, s)

/-- Flushes the end of a byte stream.  Only finishing may store a chunk that is not full, so
there is nothing to do. -/
def flush (w : ChunkWriter) (s : ChunkStore) : Except IoError Unit × ChunkWriter × ChunkStore :=
  (.ok (), w, s)

/-- Removes `count` chunks beneath a key, from an index on.  A chunk that cannot
be removed stays; it only costs space. -/
def removeChunks (base : String) : Nat → UInt64 → ChunkStore → ChunkStore
  | 0, _, s => s
  | count + 1, index, s => removeChunks base count (index + 1) (s.remove (chunkKey base index)).2

def manifest (w : ChunkWriter) : Manifest :=
  ⟨w.committed, w.length, w.chunkSize.bytes⟩

/-- Stores the manifest, and removes the chunks that only the replaced value had. -/
def close (w : ChunkWriter) (s : ChunkStore) :
    Except VaultError Manifest × ChunkWriter × ChunkStore :=
  match s.storeManifest w.base w.manifest with
  | (.error error, s) => (.error (.chunkCommitFailed w.committed error), w.fail w.committed, s)
  | (.ok _, s) =>
    (.ok w.manifest, { w with replaced := 0, state := .finished },
      removeChunks w.base (w.replaced.toNat - w.committed.toNat) w.committed s)

/-- Completes the value: stores the bytes still buffered, if any, and the
manifest.  An empty value has one empty chunk. -/
def finish (w : ChunkWriter) (s : ChunkStore) :
    Except VaultError Manifest × ChunkWriter × ChunkStore :=
  match w.ensureWriting with
  | .error error => (.error error, w, s)
  | .ok _ =>
    if w.buffer.size ≠ 0 ∨ w.committed = 0 then
      match w.commitChunk s with
      | (.error error, w, s) => (.error error, w, s)
      | (.ok _, w, s) => w.close s
    else w.close s

/-- Gives a writer up.  One that is still writing completes its value first. -/
def drop (w : ChunkWriter) (s : ChunkStore) : ChunkStore :=
  match w.state with
  | .writing => (w.finish s).2.2
  | _ => s

end ChunkWriter

end ContentVault
