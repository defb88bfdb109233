/-
The ClientHello peek of a CONNECT tunnel (services/elitea-egress-proxy/
internal/proxy/clienthello.go, `peekClientHello` of server.go).

# Reading

`byteReader` turns bad at the first read past the end and every caller
then answers malformed, so a read is an `Option` here. The loops over
names, extensions and records take bytes in every round; the number of
bytes is enough fuel for them.

# The peek

`peek` is the loop of `peekClientHello` over what is still to come from
the client and the sizes `Read` happens to return: at most the room left
under the bound and at most the chunk, and possibly nothing. It scans all
it has read after every read. Deadlines and the alert are left out; a
stream that ends is a client that went away.
-/
import Elitea.Lib.Wire

namespace Elitea.Egress

open Lib.Wire

-- ================================================================ the hello

/-- `clientHello`: the server name, if there is one. -/
structure Hello where
  serverName : Option Bytes := none
  hasECH : Bool := false
  deriving DecidableEq, Repr

def extensionServerName : Nat := 0x0000

def extensionECH : Nat := 0xfe0d

/-- The loop of `parseServerName`. -/
def nameLoop : Nat → Bytes → Option Bytes → Option Bytes
  | _, [], name => name
  | 0, _ :: _, _ => none
  | fuel + 1, list, name => do
      let (typ, list) ← u8 list
      let (value, list) ← vec16 list
      if typ ≠ 0 ∨ name.isSome ∨ value = [] then none
      else nameLoop fuel list (some value)

/-- `parseServerName`. -/
def parseServerName (data : Bytes) : Option Bytes := do
  let (list, rest) ← vec16 data
  if rest ≠ [] ∨ list = [] then none else nameLoop list.length list none

/-- What an extension adds to a hello. -/
def Hello.extended (hello : Hello) (typ : Nat) (data : Bytes) :
    Option Hello :=
  if typ = extensionServerName then
    (parseServerName data).map fun name =>
      { hello with serverName := some name }
  else if typ = extensionECH then some { hello with hasECH := true }
  else some hello

/-- The loop over the extensions. -/
def extensionLoop : Nat → Bytes → List Nat → Hello → Option Hello
  | _, [], _, hello => some hello
  | 0, _ :: _, _, _ => none
  | fuel + 1, exts, seen, hello => do
      let (typ, exts) ← u16 exts
      let (data, exts) ← vec16 exts
      if typ ∈ seen then none
      else
        let hello ← hello.extended typ data
        extensionLoop fuel exts (typ :: seen) hello

/-- The extensions block, which older versions may leave out. -/
def parseExtensions (b : Bytes) : Option Hello :=
  if b = [] then some {}
  else do
    let (exts, rest) ← vec16 b
    if rest ≠ [] then none else extensionLoop exts.length exts [] {}

/-- `parseClientHello`. -/
def parseClientHello (body : Bytes) : Option Hello := do
  let (_, b) ← take 2 body
  let (_, b) ← take 32 b
  let (sid, b) ← vec8 b
  let (suites, b) ← vec16 b
  let (comp, b) ← vec8 b
  if sid.length > 32 ∨ suites.length < 2 ∨ suites.length % 2 ≠ 0
      ∨ comp.length < 1 then none
  else parseExtensions b

-- ================================================================= the scan

/-- What `scanClientHello` answers; `more` is not complete and no error. -/
inductive Scan
  | more
  | notTLS
  | malformed
  | tooLarge
  | hello (hello : Hello)
  deriving DecidableEq, Repr

def recordTypeHandshake : UInt8 := 0x16

def maxRecordPayload : Nat := 2 ^ 14

/-- What the handshake bytes so far decide, if anything. -/
def messageOf (maxBytes : Nat) : Bytes → Option Scan
  | [] => none
  | t :: hs =>
      match u24 hs with
      | none => none
      | some (bodyLen, rest) =>
          if t ≠ 0x01 then some .malformed
          else if 4 + bodyLen > maxBytes then some .tooLarge
          else if rest.length < bodyLen then none
          else
            match parseClientHello (rest.take bodyLen) with
            | none => some .malformed
            | some hello => some (.hello hello)

/-- A round of the loop over records: it returns, or goes on with the
handshake bytes, the offset and what is left. -/
inductive Round
  | done (answer : Scan)
  | next (hs : Bytes) (off : Nat) (rest : Bytes)

/-- The end of a round, with the record's payload appended. -/
def afterRecord (maxBytes : Nat) (hs : Bytes) (off : Nat) (rest : Bytes) :
    Round :=
  match messageOf maxBytes hs with
  | some answer => .done answer
  | none => .next hs off rest

def scanRound (maxBytes : Nat) (hs : Bytes) (off : Nat) : Bytes → Round
  | [] => .done .more
  | t :: rest =>
      if t ≠ recordTypeHandshake then .done .malformed
      else if rest.head?.any (· ≠ 0x03) then .done .malformed
      else
        match u16 (rest.drop 2) with
        | none => .done .more
        | some (n, rest) =>
            if n = 0 ∨ n > maxRecordPayload then .done .malformed
            else if off + 5 + n > maxBytes then .done .tooLarge
            else if rest.length < n then .done .more
            else
              afterRecord maxBytes (hs ++ rest.take n) (off + 5 + n)
                (rest.drop n)

def scanLoop (maxBytes : Nat) : Nat → Bytes → Nat → Bytes → Scan
  | 0, _, _, _ => .more
  | fuel + 1, hs, off, buf =>
      match scanRound maxBytes hs off buf with
      | .done answer => answer
      | .next hs off rest => scanLoop maxBytes fuel hs off rest

/-- `scanClientHello`. -/
def scanClientHello (buf : Bytes) (maxBytes : Nat) : Scan :=
  if buf = [] then .more
  else if buf.head? ≠ some recordTypeHandshake then .notTLS
  else scanLoop maxBytes (buf.length + 1) [] 0 buf

-- ================================================================= the host

def lowerASCII (c : UInt8) : UInt8 :=
  if 0x41 ≤ c ∧ c ≤ 0x5a then c + 0x20 else c

def trimOneDot (s : Bytes) : Bytes :=
  if s.getLast? = some 0x2e then s.dropLast else s

/-- `sameHost`. -/
def sameHost (sni host : Bytes) : Bool :=
  let sni := trimOneDot sni
  let host := trimOneDot host
  sni ≠ [] && sni.length = host.length
    && (sni.zip host).all fun p => lowerASCII p.1 = lowerASCII p.2

/-- `Target`: what a CONNECT names. `ParseTarget` admits no empty host. -/
structure Target where
  host : Bytes
  isIP : Bool
  port : Nat
  named : trimOneDot host ≠ []

-- ================================================================= the peek

inductive Reason
  | notTLS | clientHelloTooLarge | clientHelloMalformed | sniMissing
  | sniMismatch
  deriving DecidableEq, Repr

inductive Decision
  /-- the tunnel goes on, with the bytes to replay -/
  | proceed (buf : Bytes)
  | refused (reason : Reason)
  /-- the client went away -/
  | closed
  deriving DecidableEq, Repr

/-- The switch on what the bytes read so far say. -/
def verdict (target : Target) (buf : Bytes) : Scan → Option Decision
  | .notTLS =>
      if target.port = 443 then some (.refused .notTLS)
      else some (.proceed buf)
  | .tooLarge => some (.refused .clientHelloTooLarge)
  | .malformed => some (.refused .clientHelloMalformed)
  | .more => none
  | .hello hello =>
      match hello.serverName with
      | none =>
          if target.isIP then some (.proceed buf)
          else some (.refused .sniMissing)
      | some name =>
          if sameHost name target.host then some (.proceed buf)
          else some (.refused .sniMismatch)

def chunkSize : Nat := 4096

/-- `peekClientHello`: the sizes the reads return, the bytes read and those
to come. The decision comes with what was not read; none is a peek still
waiting. -/
def peek (limit : Nat) (target : Target) :
    List Nat → Bytes → Bytes → Option (Decision × Bytes)
  | [], _, _ => none
  | size :: sizes, buf, rest =>
      if limit ≤ buf.length then
        some (.refused .clientHelloTooLarge, rest)
      else if rest = [] then some (.closed, rest)
      else
        let n := min size (min (limit - buf.length) chunkSize)
        if n = 0 then peek limit target sizes buf rest
        else
          match verdict target (buf ++ rest.take n)
              (scanClientHello (buf ++ rest.take n) limit) with
          | some decision => some (decision, rest.drop n)
          | none => peek limit target sizes (buf ++ rest.take n) (rest.drop n)

end Elitea.Egress
