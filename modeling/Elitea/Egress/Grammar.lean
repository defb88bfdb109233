/-
The TLS wire grammar as far as the peek depends on it: what a ClientHello
is and which bytes it is sent as, with no word on how to read it.

A value of `ClientHello` is a well-formed message: its vectors have the
lengths the grammar allows, no extension type comes twice, and a
server_name extension names one host. Records are handshake records with
a payload of 1 to 2^14 bytes. `Proceeds` is the purpose of the peek in
these terms.
-/
import Elitea.Egress.ClientHello

namespace Elitea.Egress.Grammar

open Lib.Wire

-- =============================================================== extensions

inductive Extension
  | serverName (name : Bytes) (fits : name ≠ [] ∧ name.length + 5 < 65536)
  | other (typ : Nat) (data : Bytes)
      (fits : typ ≠ extensionServerName ∧ typ < 65536
        ∧ data.length < 65536)

namespace Extension

def typ : Extension → Nat
  | serverName _ _ => extensionServerName
  | other typ _ _ => typ

/-- The data of a server_name extension is a list of one host_name. -/
def data : Extension → Bytes
  | serverName name _ => putVec16 (0x00 :: putVec16 name)
  | other _ data _ => data

def encode (e : Extension) : Bytes := put16 e.typ ++ putVec16 e.data

def name? : Extension → Option Bytes
  | serverName name _ => some name
  | other _ _ _ => none

end Extension

def encodeAll (es : List Extension) : Bytes := es.flatMap Extension.encode

-- ================================================================ the hello

structure ClientHello where
  version : Bytes
  random : Bytes
  sessionId : Bytes
  suites : Bytes
  compression : Bytes
  /-- the block may be left out -/
  block : Option (List Extension)
  version_length : version.length = 2
  random_length : random.length = 32
  sessionId_le : sessionId.length ≤ 32
  suites_pairs : 2 ≤ suites.length ∧ suites.length % 2 = 0
    ∧ suites.length < 65536
  compression_some : 1 ≤ compression.length ∧ compression.length < 256
  block_fits : ∀ es ∈ block, (encodeAll es).length < 65536
  types_distinct : ∀ es ∈ block, (es.map Extension.typ).Nodup

namespace ClientHello

def extensions (ch : ClientHello) : List Extension := ch.block.getD []

/-- The name the message asks for. -/
def serverName (ch : ClientHello) : Option Bytes :=
  ch.extensions.findSome? Extension.name?

def encodeBlock : Option (List Extension) → Bytes
  | none => []
  | some es => putVec16 (encodeAll es)

def encode (ch : ClientHello) : Bytes :=
  ch.version ++ (ch.random ++ (putVec8 ch.sessionId
    ++ (putVec16 ch.suites ++ (putVec8 ch.compression
    ++ encodeBlock ch.block))))

/-- The message with its handshake header. -/
def message (ch : ClientHello) : Bytes :=
  0x01 :: (put24 ch.encode.length ++ ch.encode)

end ClientHello

-- ================================================================== records

structure Record where
  minor : UInt8
  payload : Bytes
  payload_pos : 0 < payload.length
  payload_le : payload.length ≤ maxRecordPayload

def Record.encode (r : Record) : Bytes :=
  recordTypeHandshake :: 0x03 :: r.minor :: putVec16 r.payload

/-- The stream starts with records of at most `limit` bytes in total whose
payloads start with the message. -/
def Carries (limit : Nat) (stream : Bytes) (ch : ClientHello) : Prop :=
  ∃ rs : List Record,
    rs.flatMap Record.encode <+: stream
      ∧ (rs.flatMap Record.encode).length ≤ limit
      ∧ ch.message <+: rs.flatMap Record.payload

-- ============================================================ what may pass

/-- Equal but for ASCII case and one trailing dot on either side. -/
def SameName (a b : Bytes) : Prop :=
  (trimOneDot a).map lowerASCII = (trimOneDot b).map lowerASCII

/-- The server name a tunnel to the target may ask for. -/
def Admits (target : Target) : Option Bytes → Prop
  | some name => SameName name target.host
  | none => target.isIP

/-- A stream whose tunnel goes on. -/
def Proceeds (limit : Nat) (target : Target) (stream : Bytes) : Prop :=
  (∃ ch, Carries limit stream ch ∧ Admits target ch.serverName)
    ∨ (∃ first rest, stream = first :: rest ∧ first ≠ recordTypeHandshake
        ∧ target.port ≠ 443)

end Elitea.Egress.Grammar
