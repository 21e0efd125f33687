import DeclSchema.Location
import DeclSchema.Notice
import DeclSchema.Storage
import DeclSchema.Traced

/-!
# Sources

The text of a declaration source, which is fetched if its location is the address of a remote source
and read from storage otherwise. A stored source is UTF-8, and its line ends become line feeds.

## Main definitions

* `Source.Reply`: what comes of fetching a remote source
* `Source.load`: the text of a source
-/

namespace DeclSchema.Source

/-- What comes of fetching a remote source. -/
inductive Reply where
  | silence (problem : Text)
  | refusal (problem : Text)
  | page (text : List Char)

/-- The text of a remote source. -/
def fetch (location : Text) : Reply → Except Fault (List Char)
  | .silence problem => .error (.unreachableSource location problem)
  | .refusal problem => .error (.unreachableSource location problem)
  | .page text => .ok text

/-- The text that bytes stand for, with line feeds as line ends. -/
def decode (bytes : ByteArray) : Except Fault (List Char) :=
  match Utf8.decode? bytes with
  | some cs => .ok (Utf8.unixLines cs)
  | none => .error .undecodable

def readStored (s : Storage) (location : Location) : Except Fault (List Char) := do
  let p := location.toPath
  p.check
  match s.read p with
  | .ok bytes => decode bytes
  | .error f => .error (.unreadableSource location.shown (f.message p))

def load (s : Storage) (reply : Reply) (location : Location) : Traced Notice (List Char) := do
  if ← .ofExcept location.isRemote then
    .emit (.fetching location.shown)
    .ofExcept (fetch location.shown reply)
  else .ofExcept (readStored s location)

end DeclSchema.Source
