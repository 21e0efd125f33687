import DeclSchema.Fault
import DeclSchema.Storage.Path

/-!
# Locations

A location names a source: it is the address of a remote source if it has the scheme `http` or
`https`, and a path otherwise. Blanks and control characters in front of an address, and tabulators
and line ends anywhere in it, do not count.

An address is malformed if its authority has only one of the two brackets, or a character that
stands for one of the delimiters of addresses. If it has both brackets, then its host must be an
IPv6 address or an address of a future version, and nothing but a port may stand beside it.

## Main definitions

* `Location`: the locations
* `Location.splitScheme`, `Location.authority?`: parts of an address
* `Location.isIPv6`, `Location.isFutureAddress`: the addresses in brackets
* `Location.isRemote`: whether a location is the address of a remote source
-/

namespace DeclSchema

/-- Where a source is. -/
inductive Location where
  /-- At an address or a path, as it is written. -/
  | written (t : Text)
  /-- At a path. -/
  | path (p : Path)

namespace Location

def shown : Location → Text
  | written t => t
  | path p => p.shown

def toPath : Location → Path
  | written t => .ofText t
  | path p => p

/-! ### Parts of an address -/

/-- The characters of a text, where a replacement character stands for each surrogate. -/
def charsOf (t : Text) : List Char :=
  t.map fun p => p.char?.getD '\uFFFD'

/-- The characters of a location that count. -/
def significant (cs : List Char) : List Char :=
  (cs.dropWhile fun c => c.toNat ≤ 0x20).filter fun c => c ≠ '\t' && c ≠ '\r' && c ≠ '\n'

/-- Whether a character may stand in a scheme. -/
def isSchemeChar (c : Char) : Bool :=
  c.isAlphanum || c = '+' || c = '-' || c = '.'

/-- Splits the scheme off, in lower case; it is empty if there is none. -/
def splitScheme (cs : List Char) : List Char × List Char :=
  match cs.span (· ≠ ':') with
  | (first :: others, _ :: rest) =>
    if first.isAlpha && (first :: others).all isSchemeChar then
      ((first :: others).map Char.toLower, rest)
    else ([], cs)
  | _ => ([], cs)

/-- The authority, which stands after two slashes. -/
def authority? : List Char → Option (List Char)
  | '/' :: '/' :: rest => some (rest.takeWhile fun c => c ≠ '/' && c ≠ '?' && c ≠ '#')
  | _ => none

/-! ### Addresses of hosts -/

/-- The pieces of a text between separators. -/
def splitAt (separator : Char) : List Char → List (List Char)
  | [] => [[]]
  | c :: rest =>
    if c = separator then [] :: splitAt separator rest
    else
      match splitAt separator rest with
      | [] => [[c]]
      | piece :: others => (c :: piece) :: others

/-- Whether a piece is a number below 256 in decimal digits, without superfluous zeros. -/
def isOctet (piece : List Char) : Bool :=
  piece ≠ [] && piece.all Char.isDigit && piece.length ≤ 3
    && (piece = ['0'] || piece.head? ≠ some '0')
    && piece.foldl (fun n c => 10 * n + (c.toNat - '0'.toNat)) 0 ≤ 255

def isIPv4 (cs : List Char) : Bool :=
  let pieces := splitAt '.' cs
  pieces.length = 4 && pieces.all isOctet

def isHexDigit (c : Char) : Bool :=
  c.isDigit || ('a' ≤ c && c ≤ 'f') || ('A' ≤ c && c ≤ 'F')

/-- Whether a piece is a group of an IPv6 address. -/
def isGroup (piece : List Char) : Bool :=
  piece ≠ [] && piece.all isHexDigit && piece.length ≤ 4

/-- The pieces of an IPv6 address, where an IPv4 address at the end counts as two groups. -/
def groups? (cs : List Char) : Option (List (List Char)) :=
  let pieces := splitAt ':' cs
  let last := pieces.getLastD []
  if pieces.length < 3 then none
  else if last.contains '.' then
    if isIPv4 last then some (pieces.dropLast ++ [['0'], ['0']]) else none
  else some pieces

/-- Whether groups stand on one side of a gap: none, as one empty piece, or only proper ones. -/
def isSide (pieces : List (List Char)) : Bool :=
  pieces = [[]] || pieces.all isGroup

/-- Whether pieces form an IPv6 address: eight groups, or fewer around one gap. The gap is an empty
piece inside, and an empty piece at an end can only be next to it. -/
def isGroups (pieces : List (List Char)) : Bool :=
  -- An empty piece at an end is no gap by itself.
  let inner := (pieces.drop 1).dropLast
  match inner.count [] with
  | 0 => pieces.length = 8 && pieces.all isGroup
  | 1 =>
    let gap := inner.idxOf [] + 1
    let front := pieces.take gap
    let back := pieces.drop (gap + 1)
    isSide front && isSide back && ((front ++ back).filter (· ≠ [])).length ≤ 7
  | _ => false

/-- Whether a text is an IPv6 address, possibly with a zone after a percent sign. -/
def isIPv6 (cs : List Char) : Bool :=
  let (address, zone) := cs.span (· ≠ '%')
  let zoned := zone = [] || (zone.length ≥ 2 && !(zone.drop 1).contains '%')
  zoned && (groups? address).any fun pieces => pieces.length ≤ 9 && isGroups pieces

/-- Whether a text is an address of a future version: `v`, a number, a point and something more. -/
def isFutureAddress : List Char → Bool
  | 'v' :: rest =>
    let (version, tail) := rest.span isHexDigit
    version ≠ [] && tail.head? = some '.' && 2 ≤ tail.length
  | _ => false

/-- Whether a text may stand in brackets. -/
def isBracketed (cs : List Char) : Bool :=
  if cs.head? = some 'v' then isFutureAddress cs else isIPv6 cs

/-- The characters beyond ASCII that are compatible with text that has one of `/?#@:`. -/
def deceptive : List Nat :=
  [0x2047, 0x2048, 0x2049, 0x2100, 0x2101, 0x2105, 0x2106, 0x2a74, 0xfe13, 0xfe16, 0xfe55, 0xfe56,
    0xfe5f, 0xfe6b, 0xff03, 0xff0f, 0xff1a, 0xff1f, 0xff20]

/-- The host and the port of an authority: what stands after the last at sign. -/
def hostAndPort (authority : List Char) : List Char :=
  (authority.reverse.takeWhile (· ≠ '@')).reverse

/-- Whether what stands after a bracketed host is nothing or a port. -/
def isPortPart (cs : List Char) : Bool :=
  cs = [] || cs.head? = some ':'

/-- Whether a host with a port is one that may stand in brackets: in brackets with nothing before
them, or without them up to the port. -/
def isBracketedHost (cs : List Char) : Bool :=
  match cs.span (· ≠ '[') with
  | (before, _ :: bracketed) =>
    let (host, after) := bracketed.span (· ≠ ']')
    before = [] && isPortPart (after.drop 1) && isBracketed host
  | (_, []) => isBracketed (cs.takeWhile (· ≠ ':'))

/-- Whether an authority is well-formed. -/
def isAuthority (cs : List Char) : Bool :=
  (cs.contains '[' == cs.contains ']')
    -- The brackets may stand before the at sign; the host is examined all the same.
    && (!cs.contains '[' || isBracketedHost (hostAndPort cs))
    && !cs.any fun c => deceptive.contains c.toNat

/-- Whether a text is the address of a remote source. -/
def isRemoteText (t : Text) : Except Fault Bool :=
  let (scheme, rest) := splitScheme (significant (charsOf t))
  let remote := scheme = "http".toList || scheme = "https".toList
  match authority? rest with
  | some authority => if isAuthority authority then .ok remote else .error .malformedLocation
  | none => .ok remote

/-- Whether a location is the address of a remote source; a path is none. -/
def isRemote : Location → Except Fault Bool
  | written t => isRemoteText t
  | path _ => .ok false

end Location

end DeclSchema
