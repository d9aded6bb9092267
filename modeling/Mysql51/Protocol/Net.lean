import Mysql51.Lib.Machine
import Mysql51.Lib.Memory

/-!
# The client/server protocol

`sql/net_serv.cc`: logical packets are cut into frames of at most `MAX_PACKET_LENGTH` bytes, frames are collected in the write
buffer, and with compression the buffer goes out in blocks with a header of their own. The reader puts the packets together
again in its one buffer. A call of `vio_read` or `vio_write` transfers any number of bytes that is not zero; their errors and the
timeouts are left out, but a socket with nothing more to read ends the call with an error.
-/

namespace Mysql51.Protocol

open Machine Memory

def maxPacketLength : Nat := 256 * 256 * 256 - 1

def netHeaderSize : Nat := 4

def compHeaderSize : Nat := 3

def ioSize : Nat := 4096

def minCompressLength : Nat := 50

/-- The bytes in a socket, and for each call the number of bytes, less one, that it transfers if it can. -/
structure Vio where
  bytes : List UInt8
  cut : Nat → Nat
  calls : Nat

def Vio.write (vio : Vio) (packet : List UInt8) : Nat × Vio :=
  let n := min packet.length (vio.cut vio.calls + 1)
  (n, { vio with bytes := vio.bytes ++ packet.take n, calls := vio.calls + 1 })

def Vio.read (vio : Vio) (size : Nat) : List UInt8 × Vio :=
  let n := min size (vio.cut vio.calls + 1)
  (vio.bytes.take n, { vio with bytes := vio.bytes.drop n, calls := vio.calls + 1 })

/-- How a call ends other than with its result; `fault` is an access behind the end of a buffer. -/
inductive NetError where
  | netReadError
  | netErrorOnWrite
  | netPacketsOutOfOrder
  | netPacketTooLarge
  | netUncompressError
  | fault
  deriving DecidableEq

/-- `NET`. `buff` has `alloc` bytes, and pointers into it are offsets. -/
structure Net where
  vio : Vio
  buff : Nat → UInt8
  alloc : Nat
  maxPacket : Nat
  maxPacketSize : Nat
  writePos : Nat
  readPos : Nat
  whereB : Nat
  pktNr : UInt32
  compressPktNr : UInt32
  compress : Bool
  remainInBuf : Nat
  bufLength : Nat
  saveChar : UInt8

/-- The functions of the compression library: `uncompress` gets the length that it has to come to. -/
structure Zlib where
  compress : List UInt8 → List UInt8
  uncompress : Nat → List UInt8 → Option (List UInt8)

abbrev Result (α : Type) : Type := Except NetError α

@[simp] theorem ok_bind {α β : Type} (a : α) (f : α → Result β) : (Except.ok a >>= f) = f a := rfl

theorem bind_eq_ok {α β : Type} {r : Result α} {f : α → Result β} {b : β} (h : (r >>= f) = .ok b) :
    ∃ a, r = .ok a ∧ f a = .ok b := by
  cases r with
  | error e => cases h
  | ok a => exact ⟨a, rfl, h⟩

namespace Net

def copyTo (net : Net) (pos : Nat) (bs : List UInt8) : Result Net :=
  if pos + bs.length ≤ net.alloc then .ok { net with buff := store net.buff pos bs } else .error .fault

def fetch (net : Net) (pos n : Nat) : List UInt8 := Memory.fetch net.buff pos n

def uint3korr (net : Net) (pos : Nat) : Nat := ofLeBytes (net.fetch pos 3)

end Net

def myNetInit (vio : Vio) (buff : Nat → UInt8) (maxPacket maxPacketSize : Nat) (compress : Bool) : Net where
  vio := vio
  buff := buff
  alloc := maxPacket + netHeaderSize + compHeaderSize
  maxPacket := maxPacket
  maxPacketSize := maxPacketSize
  writePos := 0
  readPos := 0
  whereB := 0
  pktNr := 0
  compressPktNr := 0
  compress := compress
  remainInBuf := 0
  bufLength := 0
  saveChar := 0

def int3store (n : Nat) : List UInt8 := leBytes 3 n

def nrByte (nr : UInt32) : UInt8 := nr.toUInt8

/-! ### Writing -/

def myCompress (z : Zlib) (packet : List UInt8) : List UInt8 × Nat :=
  if packet.length < minCompressLength then (packet, 0)
  else if (z.compress packet).length ≥ packet.length then (packet, 0)
  else (z.compress packet, packet.length)

def compressedBlock (z : Zlib) (nr : UInt32) (packet : List UInt8) : List UInt8 :=
  int3store (myCompress z packet).1.length ++ [nrByte nr] ++ int3store (myCompress z packet).2 ++ (myCompress z packet).1

def writeLoop : Nat → List UInt8 → Vio → Result Vio
  | 0, packet, vio => if packet = [] then .ok vio else .error .netErrorOnWrite
  | fuel + 1, packet, vio =>
    if packet = [] then .ok vio
    else
      let (n, vio) := vio.write packet
      if n = 0 then .error .netErrorOnWrite else writeLoop fuel (packet.drop n) vio

def netRealWrite (z : Zlib) (net : Net) (packet : List UInt8) : Result Net :=
  if net.compress then do
    let block := compressedBlock z net.compressPktNr packet
    let vio ← writeLoop block.length block net.vio
    .ok { net with vio := vio, compressPktNr := net.compressPktNr + 1 }
  else do
    let vio ← writeLoop packet.length packet net.vio
    .ok { net with vio := vio }

def flushBuff (z : Zlib) (net : Net) : Result Net :=
  if net.writePos ≠ 0 then do
    let net ← netRealWrite z net (net.fetch 0 net.writePos)
    .ok { net with writePos := 0 }
  else .ok net

def netFlush (z : Zlib) (net : Net) : Result Net := do
  let net ← flushBuff z net
  .ok (if net.compress then { net with pktNr := net.compressPktNr } else net)

variable (net : Net)

def Net.leftLength : Nat :=
  if net.compress ∧ net.maxPacket > maxPacketLength then maxPacketLength - net.writePos else net.maxPacket - net.writePos

def Net.append (packet : List UInt8) : Result Net := do
  let net ← net.copyTo net.writePos packet
  .ok { net with writePos := net.writePos + packet.length }

/-- The part of `net_write_buff` that fills up a buffer in use and writes it: what is left of the data. -/
def fillBuff (z : Zlib) (net : Net) (packet : List UInt8) : Result (Net × List UInt8) :=
  if net.writePos ≠ 0 then do
    let left := net.leftLength
    let net ← net.copyTo net.writePos (packet.take left)
    let net ← netRealWrite z net (net.fetch 0 (net.writePos + left))
    .ok ({ net with writePos := 0 }, packet.drop left)
  else .ok (net, packet)

def writeFull (z : Zlib) : Nat → Net → List UInt8 → Result (Net × List UInt8)
  | 0, net, packet => .ok (net, packet)
  | fuel + 1, net, packet =>
    if packet.length > maxPacketLength then do
      let net ← netRealWrite z net (packet.take maxPacketLength)
      writeFull z fuel net (packet.drop maxPacketLength)
    else .ok (net, packet)

def writeBlocks (z : Zlib) (net : Net) (packet : List UInt8) : Result (Net × List UInt8) :=
  if net.compress then writeFull z packet.length net packet else .ok (net, packet)

def netWriteBuff (z : Zlib) (net : Net) (packet : List UInt8) : Result Net :=
  if packet.length > net.leftLength then do
    let (net, packet) ← fillBuff z net packet
    let (net, packet) ← writeBlocks z net packet
    if packet.length > net.maxPacket then netRealWrite z net packet else net.append packet
  else net.append packet

/-- A read of the bytes at a pointer by `net_write_buff`, which must all be there. -/
def bytesAt (packet : List UInt8) (len : Nat) : Result (List UInt8) :=
  if len ≤ packet.length then .ok (packet.take len) else .error .fault

def frameHeader (len : Nat) : List UInt8 × Net :=
  (int3store len ++ [nrByte net.pktNr], { net with pktNr := net.pktNr + 1 })

def writeFrames (z : Zlib) : Nat → Net → List UInt8 → Result Net
  | 0, _, _ => .error .fault
  | fuel + 1, net, packet =>
    if packet.length ≥ maxPacketLength then do
      let (buff, net) := frameHeader net maxPacketLength
      let net ← netWriteBuff z net buff
      let net ← netWriteBuff z net (packet.take maxPacketLength)
      writeFrames z fuel net (packet.drop maxPacketLength)
    else do
      let (buff, net) := frameHeader net packet.length
      let net ← netWriteBuff z net buff
      netWriteBuff z net packet

def myNetWrite (z : Zlib) (net : Net) (packet : List UInt8) : Result Net := writeFrames z (packet.length + 1) net packet

/-- The loop of `net_write_command`: `first` is the command byte behind the header in `buff` while `header_size` counts it. What
is left of the packet, and `length`. -/
def commandLoop (z : Zlib) : Nat → Net → List UInt8 → List UInt8 → List UInt8 → Nat → Nat → Result (Net × List UInt8 × Nat)
  | 0, _, _, _, _, _, _ => .error .fault
  | fuel + 1, net, first, header, packet, len, length => do
    let (buff, net) := frameHeader net maxPacketLength
    let net ← netWriteBuff z net (buff ++ first)
    let net ← netWriteBuff z net header
    let data ← bytesAt packet len
    let net ← netWriteBuff z net data
    if length - maxPacketLength ≥ maxPacketLength then
      commandLoop z fuel net [] [] (packet.drop len) maxPacketLength (length - maxPacketLength)
    else .ok (net, packet.drop len, length - maxPacketLength)

def writeHeader (z : Zlib) (net : Net) (header : List UInt8) : Result Net :=
  if header ≠ [] then netWriteBuff z net header else .ok net

def commandEnd (z : Zlib) (net : Net) (first header packet : List UInt8) (len length : Nat) : Result Net := do
  let (buff, net) := frameHeader net length
  let net ← netWriteBuff z net (buff ++ first)
  let net ← writeHeader z net header
  let data ← bytesAt packet len
  let net ← netWriteBuff z net data
  netFlush z net

def netWriteCommand (z : Zlib) (net : Net) (command : UInt8) (header packet : List UInt8) : Result Net :=
  let length := (packet.length + 1 + header.length) % 2 ^ 64
  if length ≥ maxPacketLength then do
    let len := (maxPacketLength + 2 ^ 64 - 1 - header.length) % 2 ^ 64
    let (net, packet, length) ← commandLoop z length net [command] header packet len length
    commandEnd z net [] [] packet length length
  else commandEnd z net [command] header packet packet.length length

inductive Send where
  | write (packet : List UInt8)
  | command (command : UInt8) (header packet : List UInt8)
  | flush

def send (z : Zlib) (net : Net) : Send → Result Net
  | .write packet => myNetWrite z net packet
  | .command command header packet => netWriteCommand z net command header packet
  | .flush => netFlush z net

def sends (z : Zlib) : Net → List Send → Result Net
  | net, [] => .ok net
  | net, s :: ss => do
    let net ← send z net s
    sends z net ss

/-! ### Reading -/

def netRealloc (length : Nat) : Result Net :=
  if length ≥ net.maxPacketSize + net.whereB then .error .netPacketTooLarge
  else
    let pktLength := (length + ioSize - 1) / ioSize * ioSize
    .ok { net with alloc := pktLength + netHeaderSize + compHeaderSize + 1, writePos := 0, maxPacket := pktLength }

def readLoop : Nat → Net → Nat → Nat → Result Net
  | 0, net, _, remain => if remain = 0 then .ok net else .error .netReadError
  | fuel + 1, net, pos, remain =>
    if remain = 0 then .ok net
    else
      let (bs, vio) := net.vio.read remain
      if bs = [] then .error .netReadError
      else do
        let net ← { net with vio := vio }.copyTo pos bs
        readLoop fuel net (pos + bs.length) (remain - bs.length)

def growBuff (helping : Nat) : Result Net := if helping ≥ net.maxPacket then netRealloc net helping else .ok net

/-- The second part of `my_real_read`: the buffer is made large enough, and the data is read. -/
def readBody (len complen : Nat) : Result Net := do
  let net ← growBuff net (max len complen + net.whereB)
  readLoop len net net.whereB len

/-- The test of the frame number in `my_real_read`. -/
def checkNr : Result Net :=
  if net.buff (net.whereB + 3) ≠ nrByte net.pktNr then .error .netPacketsOutOfOrder
  else .ok { net with pktNr := net.pktNr + 1, compressPktNr := net.pktNr + 1 }

def readHeader : Result Net := do
  let remain := if net.compress then netHeaderSize + compHeaderSize else netHeaderSize
  let net ← readLoop remain net net.whereB remain
  checkNr net

def Net.complen : Nat := if net.compress then net.uint3korr (net.whereB + netHeaderSize) else 0

def myRealRead : Result (Nat × Nat × Net) := do
  let net ← readHeader net
  let len := net.uint3korr net.whereB
  let complen := net.complen
  if len = 0 then .ok (0, complen, net)
  else do
    let net ← readBody net len complen
    .ok (len, complen, net)

/-- The loop of `my_net_read` without compression: the length of the last frame and of those before it. -/
def multiLoop : Nat → Net → Nat → Nat → Result (Nat × Nat × Net)
  | 0, _, _, _ => .error .netReadError
  | fuel + 1, net, len, totalLength => do
    let net := { net with whereB := net.whereB + len }
    let (len', _, net) ← myRealRead net
    if len' = maxPacketLength then multiLoop fuel net len' (totalLength + len) else .ok (len', totalLength + len, net)

def readMulti (len : Nat) : Result (Nat × Net) :=
  if len = maxPacketLength then do
    let savePos := net.whereB
    let (len, totalLength, net) ← multiLoop (net.vio.bytes.length + 1) net len 0
    .ok (len + totalLength, { net with whereB := savePos })
  else .ok (len, net)

def readPlain : Result (Nat × Net) := do
  let (len, _, net) ← myRealRead net
  let (len, net) ← readMulti net len
  let net := { net with readPos := net.whereB }
  let net ← net.copyTo (net.readPos + len) [0]
  .ok (len, net)

def myUncompress (z : Zlib) (net : Net) (len complen : Nat) : Result (Nat × Net) :=
  if complen ≠ 0 then
    match z.uncompress complen (net.fetch net.whereB len) with
    | some bs => do
      let net ← net.copyTo net.whereB bs
      .ok (bs.length, net)
    | none => .error .netUncompressError
  else .ok (len, net)

/-- The variables of `my_net_read` with compression. -/
structure Cursor where
  bufLength : Nat
  startOfPacket : Nat
  firstPacketOffset : Nat
  multiBytePacket : Nat

def Net.memmove (dst src n : Nat) : Result Net :=
  if src + n ≤ net.alloc then net.copyTo dst (net.fetch src n) else .error .fault

def moveDown (c : Cursor) : Result (Net × Cursor) :=
  if c.firstPacketOffset ≠ 0 then do
    let net ← net.memmove 0 c.firstPacketOffset (c.bufLength - c.firstPacketOffset)
    .ok (net, { c with
      bufLength := c.bufLength - c.firstPacketOffset
      startOfPacket := c.startOfPacket - c.firstPacketOffset
      firstPacketOffset := 0 })
  else .ok (net, c)

def readBlock (z : Zlib) (net : Net) (c : Cursor) : Result (Net × Cursor) := do
  let (net, c) ← moveDown net c
  let net := { net with whereB := c.bufLength }
  let (packetLen, complen, net) ← myRealRead net
  let (complen, net) ← myUncompress z net packetLen complen
  .ok (net, { c with bufLength := c.bufLength + complen })

/-- A whole frame of `readLength` bytes in the buffer is passed, without its header if it is not the first one. -/
def passFrame (c : Cursor) (readLength : Nat) : Result (Net × Cursor) :=
  if c.multiBytePacket ≠ 0 then do
    let net ← net.memmove (c.firstPacketOffset + c.startOfPacket) (c.firstPacketOffset + c.startOfPacket + netHeaderSize)
      (c.bufLength - c.startOfPacket)
    .ok (net, { c with startOfPacket := c.startOfPacket + readLength, bufLength := c.bufLength - netHeaderSize })
  else .ok (net, { c with startOfPacket := c.startOfPacket + readLength + netHeaderSize })

def packetLoop (z : Zlib) : Nat → Net → Cursor → Result (Net × Cursor)
  | 0, _, _ => .error .netReadError
  | fuel + 1, net, c =>
    if c.bufLength - c.startOfPacket ≥ netHeaderSize ∧ net.uint3korr c.startOfPacket = 0 then
      -- the end of a packet of several frames, or an empty packet
      .ok (net, { c with startOfPacket := c.startOfPacket + netHeaderSize })
    else if c.bufLength - c.startOfPacket ≥ netHeaderSize ∧
        net.uint3korr c.startOfPacket + netHeaderSize ≤ c.bufLength - c.startOfPacket then do
      let readLength := net.uint3korr c.startOfPacket
      let (net, c) ← passFrame net c readLength
      if readLength ≠ maxPacketLength then .ok (net, { c with multiBytePacket := 0 })
      else do
        let (net, c) ← moveDown net { c with multiBytePacket := netHeaderSize }
        packetLoop z fuel net c
    else do
      let (net, c) ← readBlock z net c
      packetLoop z fuel net c

def openBuffer : Result (Net × Cursor) :=
  if net.remainInBuf ≠ 0 then do
    let start := net.bufLength - net.remainInBuf
    let net ← net.copyTo start [net.saveChar]
    .ok (net, { bufLength := net.bufLength, startOfPacket := start, firstPacketOffset := start, multiBytePacket := 0 })
  else .ok (net, { bufLength := 0, startOfPacket := 0, firstPacketOffset := 0, multiBytePacket := 0 })

/-- The end of `my_net_read` with compression: the byte behind the packet is saved, and a zero is put there. -/
def closeBuffer (c : Cursor) : Result (Nat × Net) := do
  let len := c.startOfPacket - c.firstPacketOffset - netHeaderSize - c.multiBytePacket
  let readPos := c.firstPacketOffset + netHeaderSize
  let net ← { net with
    readPos := readPos
    bufLength := c.bufLength
    remainInBuf := c.bufLength - c.startOfPacket
    saveChar := net.buff (readPos + len) }.copyTo (readPos + len) [0]
  .ok (len, net)

def readCompressed (z : Zlib) (fuel : Nat) (net : Net) : Result (Nat × Net) := do
  let (net, c) ← openBuffer net
  let (net, c) ← packetLoop z fuel net c
  closeBuffer net c

def myNetRead (z : Zlib) (fuel : Nat) (net : Net) : Result (Nat × Net) :=
  if net.compress then readCompressed z fuel net else readPlain net

def readPacket (z : Zlib) (fuel : Nat) (net : Net) : Result (List UInt8 × Net) := do
  let (len, net) ← myNetRead z fuel net
  .ok (net.fetch net.readPos len, net)

def readPackets (z : Zlib) (fuel : Nat) : Nat → Net → Result (List (List UInt8) × Net)
  | 0, net => .ok ([], net)
  | n + 1, net => do
    let (packet, net) ← readPacket z fuel net
    let (packets, net) ← readPackets z fuel n net
    .ok (packet :: packets, net)

end Mysql51.Protocol
