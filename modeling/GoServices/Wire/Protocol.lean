import GoServices.Schemes.Access
import GoServices.Schemes.Ranges
import GoServices.Schemes.Varint

/-! The wire protocol of the connector (`framework/protocol/protocol.go`, `tools.go`).

    Go strings are lists of bytes. Types are bytes, since any byte can arrive. The two maps `routes`
    and `codes` of the package are one `Dictionary`, which is passed along. JSON and zlib are
    parameters (`Library`). A slice keeps what lies behind it in its array (`Buf`), because slicing up
    to the capacity is allowed. -/

namespace GoServices.Wire

open Bounds Ranges

/-- The first byte of a packet. -/
abbrev PackageType := UInt8

namespace PackageType

/-- No type; `encode` refuses it. -/
def none : PackageType := 0x00
/-- The handshake of a client and its answer. -/
def handshake : PackageType := 0x01
/-- A packet with a message. -/
def data : PackageType := 0x04
/-- The connector closes the connection. -/
def kick : PackageType := 0x05

end PackageType

/-- The type of a message, three bits of its flag. -/
abbrev MessageType := UInt8

namespace MessageType

/-- A message that is answered. -/
def request : MessageType := 0x00
/-- A message that is not answered. -/
def notify : MessageType := 0x01
/-- The answer to a request. -/
def response : MessageType := 0x02
/-- A message of the server's own accord. -/
def push : MessageType := 0x03

end MessageType

/-- The bit of the flag for a route sent as a code. -/
def routeCompressMask : UInt8 := 0x01
/-- The bits of the flag for the type, after a shift. -/
def typeMask : UInt8 := 0x07
/-- The bit of the flag for compressed data. -/
def gzipMask : UInt8 := 0x10
/-- The bit of the flag for an error. -/
def errorMask : UInt8 := 0x20

/-- The length of a packet's header. -/
def headerLen : ℕ := 4
/-- The longest body that `encode` lets through. -/
def maxPacketSize : ℕ := 1 <<< 24

/-- A route, as bytes. -/
abbrev Route := List UInt8

/-- A message of a client or for one. -/
structure Message where
  type : MessageType
  id : BitVec 64
  route : Route
  data : List UInt8
  routeCompressed : Bool
  error : Bool
  deriving DecidableEq

/-- What a handshake tells about the client. -/
structure Sys where
  type : List UInt8
  version : List UInt8
  protoVersion : UInt8
  heartbeat : UInt8
  dict : Option (Map Route UInt16)
  serializer : List UInt8
  deriving DecidableEq

/-- The body of a handshake. -/
structure HandshakeBody where
  sys : Sys
  deriving DecidableEq

/-- The decoded body of a packet. -/
inductive Body where
  | nil
  | handshake (body : HandshakeBody)
  | message (m : Message)
  deriving DecidableEq

/-- A decoded packet. -/
structure Packet where
  type : PackageType
  len : UInt32
  body : Body
  deriving DecidableEq

/-- What the packages `json` and `zlib` do. -/
structure Library where
  unmarshal : List UInt8 → Except String HandshakeBody
  inflate : List UInt8 → Except String (List UInt8)

/-! ### The dictionary -/

/-- `routes` and `codes`, each the inverse of the other. -/
structure Dictionary where
  routes : Map Route UInt16
  codes : Map UInt16 Route
  inverse : ∀ r c, routes.get r = some c ↔ codes.get c = some r

/-- No route has a code. -/
def Dictionary.empty : Dictionary := ⟨Map.empty, Map.empty, fun r c => by simp⟩

/-- A new pair, whose two halves are both new. -/
def Dictionary.insert (d : Dictionary) (r : Route) (code : UInt16) (hr : d.routes.get r = .none)
    (hcode : d.codes.get code = .none) : Dictionary where
  routes := d.routes.set r code
  codes := d.codes.set code r
  inverse := fun r' c' => by
    rw [Map.get_set, Map.get_set]
    split_ifs with h h' h'
    · simp [h, h']
    · rw [← d.inverse, h, hr]
      simp [Ne.symm h']
    · rw [d.inverse, h', hcode]
      simp [Ne.symm h]
    · exact d.inverse r' c'

/-- The UTF-8 forms of the runes that are spaces. -/
def spaces : List (List UInt8) :=
  [[0x09], [0x0A], [0x0B], [0x0C], [0x0D], [0x20], [0xC2, 0x85], [0xC2, 0xA0], [0xE1, 0x9A, 0x80],
    [0xE2, 0x80, 0x80], [0xE2, 0x80, 0x81], [0xE2, 0x80, 0x82], [0xE2, 0x80, 0x83], [0xE2, 0x80, 0x84],
    [0xE2, 0x80, 0x85], [0xE2, 0x80, 0x86], [0xE2, 0x80, 0x87], [0xE2, 0x80, 0x88], [0xE2, 0x80, 0x89],
    [0xE2, 0x80, 0x8A], [0xE2, 0x80, 0xA8], [0xE2, 0x80, 0xA9], [0xE2, 0x80, 0xAF], [0xE2, 0x81, 0x9F],
    [0xE3, 0x80, 0x80]]

/-- Drops forms from the front, at most `n` of them. -/
def trimFront (forms : List (List UInt8)) : ℕ → List UInt8 → List UInt8
  | 0, s => s
  | n + 1, s => match forms.find? (·.isPrefixOf s) with
    | .none => s
    | some form => trimFront forms n (s.drop form.length)

/-- `strings.TrimSpace` -/
def trimSpace (s : List UInt8) : List UInt8 :=
  let s := trimFront spaces s.length s
  (trimFront (spaces.map List.reverse) s.length s.reverse).reverse

/-- The loop of `SetDictionary`, which stops at the first entry that is not new. -/
def addEntries : List (Route × UInt16) → Dictionary → Dictionary
  | [], d => d
  | (route, code) :: rest, d =>
    let r := trimSpace route
    if hr : d.routes.get r = .none then
      if hcode : d.codes.get code = .none then addEntries rest (d.insert r code hr hcode) else d
    else d

/-- The entries of a handshake are added; without a dictionary nothing happens. -/
def setDictionary (o : Order Route) (dict : Option (Map Route UInt16)) (d : Dictionary) : Dictionary :=
  match dict with
  | .none => d
  | some dict => addEntries (o.range dict) d

/-- The route of a code. -/
def getRoute (d : Dictionary) (code : UInt16) : Option Route := d.codes.get code

/-! ### Messages -/

/-- Whether messages of this type carry a route. -/
def routable (t : MessageType) : Bool := t == .request || t == .notify || t == .push

/-- The types whose messages carry an ID. -/
def numbered (t : MessageType) : Bool := t == .request || t == .response

/-- The bytes of a message; routes of the dictionary are sent as codes. -/
def messageEncode (d : Dictionary) (m : Message) : Except String (List UInt8) :=
  if m.type < MessageType.request ∨ m.type > MessageType.push then .error "invalid message type"
  else
    let code := d.routes.get m.route
    let flag := if code.isSome then m.type <<< 1 ||| routeCompressMask else m.type <<< 1
    let id := if numbered m.type then Varint.write m.id else []
    let route := if routable m.type then
        match code with
        | some code => [((code >>> 8) &&& 0xFF).toUInt8, (code &&& 0xFF).toUInt8]
        | .none => UInt8.ofNat m.route.length :: m.route
      else []
    .ok (flag :: id ++ route ++ m.data)

/-- The loop over the bytes of an ID, with `count` bytes left from `i` on. -/
def readID (body : Buf UInt8) (offset : ℕ) : ℕ → ℕ → BitVec 64 → Access (BitVec 64 × ℕ)
  | 0, _, id => pure (id, offset)
  | count + 1, i, id => do
    let b ← body.index i
    let id := id + ((b &&& 0x7F).toBitVec.setWidth 64 <<< (7 * (i - offset)))
    if b < 128 then pure (id, i + 1) else readID body offset count (i + 1) id

/-- `binary.BigEndian.Uint16` -/
def bigEndianUint16 (b : Buf UInt8) : Access UInt16 := do
  let b1 ← b.index 1
  let b0 ← b.index 0
  pure (b1.toUInt16 ||| b0.toUInt16 <<< 8)

/-- The route of a message, and where it ends. -/
def readRoute (d : Dictionary) (body : Buf UInt8) (flag : UInt8) (offset : ℕ) :
    Access (Except String (Bool × Route × ℕ)) :=
  if flag &&& routeCompressMask = 1 then do
    let code ← bigEndianUint16 (← body.slice offset (offset + 2))
    match getRoute d code with
    | some route => pure (.ok (true, route, offset + 2))
    | .none => pure (.error "route info not found in dictionary")
  else do
    let rl ← body.index offset
    let route ← body.slice (offset + 1) (offset + 1 + rl.toNat)
    pure (.ok (false, route.items, offset + 1 + rl.toNat))

/-- The data from `offset` on, inflated if the flag says so. -/
def readData (lib : Library) (body : Buf UInt8) (flag : UInt8) (offset : ℕ) :
    Access (Except String (List UInt8)) := do
  if offset > body.items.length then pure (.error "invalid message")
  else
    let data ← body.slice offset body.items.length
    if flag &&& gzipMask = gzipMask then pure (lib.inflate data.items) else pure (.ok data.items)

/-- The type a flag stands for. -/
def typeOf (flag : UInt8) : MessageType := (flag >>> 1) &&& typeMask

/-- The ID of a message, if its type has one, and where it ends. -/
def idPart (body : Buf UInt8) (t : MessageType) : Access (BitVec 64 × ℕ) :=
  if numbered t then readID body 1 (body.items.length - 1) 1 0 else pure (0, 1)

/-- The route of a message, if its type has one, and where it ends. -/
def routePart (d : Dictionary) (body : Buf UInt8) (flag : UInt8) (offset : ℕ) :
    Access (Except String (Bool × Route × ℕ)) :=
  if routable (typeOf flag) then readRoute d body flag offset else pure (.ok (false, [], offset))

/-- The rest of a message whose route has been read. -/
def dataPart (lib : Library) (body : Buf UInt8) (flag : UInt8) (id : BitVec 64) :
    Except String (Bool × Route × ℕ) → Access (Except String Message)
  | .error e => pure (.error e)
  | .ok (routeCompressed, route, offset) => do
    let data ← readData lib body flag offset
    pure (data.map fun data => ⟨typeOf flag, id, route, data, routeCompressed,
      decide (flag &&& errorMask = errorMask)⟩)

/-- The message in a body; an index out of range panics. -/
def messageDecode (lib : Library) (d : Dictionary) (body : Buf UInt8) :
    Access (Except String Message) := do
  let flag ← body.index 0
  if typeOf flag < MessageType.request ∨ typeOf flag > MessageType.push then
    pure (.error "invalid message type")
  else
    let (id, offset) ← idPart body (typeOf flag)
    if offset > body.items.length then pure (.error "invalid message")
    else
      let route ← routePart d body flag offset
      dataPart lib body flag id route

/-! ### Packets -/

/-- The last three bytes of a number, high byte first. -/
def intToBytes (n : ℕ) : List UInt8 :=
  [UInt8.ofNat ((n >>> 16) &&& 0xFF), UInt8.ofNat ((n >>> 8) &&& 0xFF), UInt8.ofNat (n &&& 0xFF)]

/-- The number with these bytes, high byte first. -/
def bytesToInt (b : List UInt8) : ℕ := b.foldl (fun result v => result <<< 8 + v.toNat) 0

/-- A packet with this body. -/
def encode (packageType : PackageType) (body : List UInt8) : Except String (List UInt8) :=
  if packageType = .none then .error "encode unsupported packageType"
  else if body.length > maxPacketSize then .error "encode body size too big"
  else .ok (packageType :: intToBytes body.length ++ body)

/-- The packet, and the dictionary afterwards; `o` is the order of the loop over a new one. -/
def decode (lib : Library) (o : Order Route) (d : Dictionary) (payload : Buf UInt8) :
    Access (Except String Packet × Dictionary) := do
  if payload.items.length < headerLen then pure (.error "data len invalid", d)
  else
    let type ← payload.index 0
    let len := UInt32.ofNat (bytesToInt (← payload.slice 1 headerLen).items)
    if type = PackageType.handshake then
      let rest ← payload.slice headerLen payload.items.length
      match lib.unmarshal rest.items with
      | .error e => pure (.error e, d)
      | .ok body => pure (.ok ⟨type, len, .handshake body⟩, setDictionary o body.sys.dict d)
    else if type = PackageType.data then
      let m ← messageDecode lib d (← payload.slice headerLen payload.items.length)
      pure (m.map fun m => ⟨type, len, .message m⟩, d)
    else pure (.ok ⟨type, len, .nil⟩, d)

end GoServices.Wire
