import Mysql51.Protocol.Write

/-!
# What is read

`my_real_read` takes one frame or block from the socket, however the reads are cut. Without compression `my_net_read` puts the
frames of a packet one behind the other, and returns the packets that were written.
-/

namespace Mysql51.Protocol

open Machine Memory List

variable {z : Zlib} {net net' : Net}

/-! ### One frame or block -/

theorem Vio.read_eq (vio : Vio) {data rest : List UInt8} (hbytes : vio.bytes = data ++ rest) (hne : data ≠ []) :
    ∃ bs data' vio', vio.read data.length = (bs, vio') ∧ bs ≠ [] ∧ data = bs ++ data' ∧ vio'.bytes = data' ++ rest := by
  have hpos := length_pos_iff.2 hne
  have hle : min data.length (vio.cut vio.calls + 1) ≤ data.length := Nat.min_le_left _ _
  generalize hn : min data.length (vio.cut vio.calls + 1) = n at hle
  refine ⟨data.take n, data.drop n, { vio with bytes := data.drop n ++ rest, calls := vio.calls + 1 }, ?_, ?_,
    (take_append_drop _ _).symm, rfl⟩
  · rw [Vio.read, hn, hbytes, take_append_of_le_length hle, drop_append_of_le_length hle]
  intro hnil
  have hlen := congrArg List.length hnil
  rw [length_take, length_nil] at hlen
  omega

theorem readLoop_eq {fuel pos : Nat} {data rest : List UInt8} (hfuel : data.length ≤ fuel) (hbytes : net.vio.bytes = data ++ rest)
    (halloc : pos + data.length ≤ net.alloc) :
    ∃ vio', readLoop fuel net pos data.length = .ok { net with vio := vio', buff := store net.buff pos data } ∧
      vio'.bytes = rest := by
  induction fuel generalizing net pos data with
  | zero =>
    obtain rfl : data = [] := length_eq_zero_iff.1 (Nat.le_zero.1 hfuel)
    exact ⟨net.vio, by rw [store_nil]; rfl, hbytes⟩
  | succ fuel ih =>
    by_cases hnil : data = []
    · subst hnil
      exact ⟨net.vio, by rw [store_nil]; rfl, hbytes⟩
    obtain ⟨bs, data', vio₁, hread, hne, rfl, hbytes₁⟩ := net.vio.read_eq hbytes hnil
    have hpos := length_pos_iff.2 hne
    have hlen : (bs ++ data').length - bs.length = data'.length := by rw [length_append, Nat.add_sub_cancel_left]
    rw [length_append] at halloc hfuel
    obtain ⟨vio', hloop, hrest⟩ := @ih { net with vio := vio₁, buff := store net.buff pos bs } (pos + bs.length) data' (by omega)
      hbytes₁ (by rw [add_assoc]; exact halloc)
    refine ⟨vio', ?_, hrest⟩
    rw [store_append] at hloop
    rw [readLoop, if_neg (by rw [length_append]; omega), hread]
    dsimp only
    rw [if_neg hne, hlen, Net.copyTo, if_pos (by show pos + bs.length ≤ net.alloc; omega), ok_bind]
    exact hloop

structure Room (net : Net) : Prop where
  whereB : net.whereB ≤ net.maxPacket
  alloc : net.maxPacket + netHeaderSize + compHeaderSize ≤ net.alloc

/-- From `net` to `net'` the body of a frame or block was read to `where_b`. -/
structure Got (net net' : Net) (body rest : List UInt8) (complen : Nat) : Prop where
  bytes : net'.vio.bytes = rest
  data : net'.fetch net.whereB body.length = body
  before : ∀ p < net.whereB, net'.buff p = net.buff p
  room : net.whereB + body.length ≤ net'.maxPacket ∧ (body ≠ [] → net.whereB + complen ≤ net'.maxPacket)
  alloc : net'.maxPacket + netHeaderSize + compHeaderSize ≤ net'.alloc
  pktNr : net'.pktNr = net.pktNr + 1
  whereB : net'.whereB = net.whereB
  compress : net'.compress = net.compress
  maxPacketSize : net'.maxPacketSize = net.maxPacketSize

def blockHeader (compress : Bool) (nr : UInt32) (len complen : Nat) : List UInt8 :=
  int3store len ++ [nrByte nr] ++ if compress then int3store complen else []

theorem ofLeBytes_int3store {n : Nat} (h : n ≤ maxPacketLength) : ofLeBytes (int3store n) = n :=
  ofLeBytes_leBytes_of_lt (lt_of_le_of_lt h (by decide))

theorem length_int3store (n : Nat) : (int3store n).length = 3 := length_leBytes 3 n

theorem growBuff_eq {helping : Nat} (hroom : Room net) (hsize : helping < net.maxPacketSize + net.whereB) :
    ∃ net', growBuff net helping = .ok net' ∧
      net' = { net with alloc := net'.alloc, writePos := net'.writePos, maxPacket := net'.maxPacket } ∧
        helping ≤ net'.maxPacket ∧ net'.maxPacket + netHeaderSize + compHeaderSize ≤ net'.alloc := by
  rw [growBuff]
  by_cases hbig : helping ≥ net.maxPacket
  · rw [if_pos hbig, netRealloc, if_neg (Nat.not_le_of_lt hsize)]
    refine ⟨_, rfl, rfl, ?_, Nat.le_succ _⟩
    show helping ≤ (helping + ioSize - 1) / ioSize * ioSize
    have hio : ioSize = 4096 := rfl
    rw [hio]
    omega
  rw [if_neg hbig]
  exact ⟨net, rfl, rfl, by omega, hroom.alloc⟩

theorem header_fields (m : Nat → UInt8) (pos : Nat) {compress : Bool} (nr : UInt32) {len complen : Nat} (hlen : len ≤ maxPacketLength)
    (hcomp : complen ≤ maxPacketLength) :
    let m' := store m pos (blockHeader compress nr len complen)
    m' (pos + 3) = nrByte nr ∧ ofLeBytes (Memory.fetch m' pos 3) = len ∧
      (compress = true → ofLeBytes (Memory.fetch m' (pos + netHeaderSize) 3) = complen) := by
  have hlen3 := length_int3store len
  refine ⟨?_, ?_, fun hc => ?_⟩
  · have hnr := @fetch_store_part m pos (int3store len) [nrByte nr] (if compress then int3store complen else [])
    rw [hlen3] at hnr
    exact (List.cons.inj hnr).1
  · have hfirst := @fetch_store_part m pos [] (int3store len) ([nrByte nr] ++ if compress then int3store complen else [])
    rw [hlen3, nil_append, ← append_assoc] at hfirst
    exact (congrArg ofLeBytes hfirst).trans (ofLeBytes_int3store hlen)
  have hlast := @fetch_store_part m pos (int3store len ++ [nrByte nr]) (int3store complen) []
  rw [append_nil, length_append, hlen3, length_int3store] at hlast
  have hheader : blockHeader compress nr len complen = int3store len ++ [nrByte nr] ++ int3store complen := by
    rw [blockHeader, if_pos hc]
  rw [hheader]
  exact (congrArg ofLeBytes hlast).trans (ofLeBytes_int3store hcomp)

theorem length_blockHeader (compress : Bool) (nr : UInt32) (len complen : Nat) :
    (blockHeader compress nr len complen).length = if compress then netHeaderSize + compHeaderSize else netHeaderSize := by
  cases compress <;> simp [blockHeader, length_int3store, netHeaderSize, compHeaderSize]

theorem readHeader_eq {rest : List UInt8} {len complen : Nat} {nr : UInt32} (hroom : Room net) (hnr : nrByte nr = nrByte net.pktNr)
    (hbytes : net.vio.bytes = blockHeader net.compress nr len complen ++ rest) (hlen : len ≤ maxPacketLength)
    (hcomp : complen ≤ maxPacketLength) (hplain : net.compress = false → complen = 0) :
    ∃ net', readHeader net = .ok net' ∧ net'.vio.bytes = rest ∧ (∀ p < net.whereB, net'.buff p = net.buff p) ∧
      net'.uint3korr net.whereB = len ∧ net'.complen = complen ∧ net'.pktNr = net.pktNr + 1 ∧ net' = { net with
          vio := net'.vio, buff := net'.buff, pktNr := net'.pktNr, compressPktNr := net'.compressPktNr } := by
  have hfits : net.whereB + (blockHeader net.compress nr len complen).length ≤ net.alloc := by
    have halloc := hroom.alloc
    have hwhere := hroom.whereB
    rw [length_blockHeader]
    split_ifs <;> omega
  obtain ⟨vio₁, hloop, hrest⟩ := @readLoop_eq net _ net.whereB _ rest le_rfl hbytes hfits
  obtain ⟨hbyte, hfirst, hsecond⟩ := @header_fields net.buff net.whereB net.compress nr _ _ hlen hcomp
  rw [length_blockHeader] at hloop
  rw [readHeader, hloop, ok_bind, checkNr, if_neg (by rw [ne_eq, not_not]; exact hbyte.trans hnr)]
  refine ⟨_, rfl, hrest, fun p hp => store_before _ hp, hfirst, ?_, rfl, rfl⟩
  show (if net.compress = true then _ else 0) = complen
  by_cases hc : net.compress = true
  · rw [if_pos hc]
    exact hsecond hc
  rw [if_neg hc]
  exact (hplain (Bool.not_eq_true _ ▸ hc)).symm

theorem readBody_eq {body rest : List UInt8} {complen : Nat} (hroom : Room net) (hbytes : net.vio.bytes = body ++ rest)
    (hsize : max body.length complen < net.maxPacketSize) :
    ∃ net', readBody net body.length complen = .ok net' ∧ net'.vio.bytes = rest ∧ net'.buff = store net.buff net.whereB body ∧
      net.whereB + max body.length complen ≤ net'.maxPacket ∧ net'.maxPacket + netHeaderSize + compHeaderSize ≤ net'.alloc ∧
        net' = { net with
          vio := net'.vio, buff := net'.buff, alloc := net'.alloc, writePos := net'.writePos, maxPacket := net'.maxPacket } := by
  obtain ⟨net₁, hgrow, hsame, hhelping, halloc⟩ := @growBuff_eq net (max body.length complen + net.whereB) hroom
    (Nat.add_lt_add_right hsize _)
  have hvio : net₁.vio.bytes = body ++ rest := by rw [hsame]; exact hbytes
  have hwhere : net₁.whereB = net.whereB := by rw [hsame]
  have hbuff : net₁.buff = net.buff := by rw [hsame]
  have hmax := Nat.le_max_left body.length complen
  obtain ⟨vio₂, hloop, hrest⟩ := @readLoop_eq net₁ body.length net₁.whereB body rest le_rfl hvio (by omega)
  rw [readBody, hgrow, ok_bind, hloop]
  refine ⟨_, rfl, hrest, ?_, ?_, halloc, ?_⟩
  · rw [hbuff, hwhere]
  · show net.whereB + max body.length complen ≤ net₁.maxPacket
    omega
  rw [hsame]

theorem myRealRead_eq {body rest : List UInt8} {complen : Nat} {nr : UInt32} (hroom : Room net) (hnr : nrByte nr = nrByte net.pktNr)
    (hbytes : net.vio.bytes = blockHeader net.compress nr body.length complen ++ (body ++ rest)) (hlen : body.length ≤ maxPacketLength)
    (hcomp : complen ≤ maxPacketLength) (hplain : net.compress = false → complen = 0)
    (hsize : body ≠ [] → max body.length complen < net.maxPacketSize) :
    ∃ net', myRealRead net = .ok (body.length, complen, net') ∧ Got net net' body rest complen := by
  obtain ⟨net₁, hheader, hrest₁, hbefore₁, hlen₁, hcomp₁, hnr₁, hsame₁⟩ := readHeader_eq hroom hnr hbytes hlen hcomp hplain
  have hwhere₁ : net₁.whereB = net.whereB := by rw [hsame₁]
  have hsize₁ : net₁.maxPacketSize = net.maxPacketSize := by rw [hsame₁]
  have hc₁ : net₁.compress = net.compress := by rw [hsame₁]
  have hroom₁ : Room net₁ := by
    rw [hsame₁]
    exact ⟨hroom.whereB, hroom.alloc⟩
  rw [← hwhere₁] at hlen₁
  rw [myRealRead, hheader, ok_bind, hlen₁, hcomp₁]
  by_cases hnil : body = []
  · subst hnil
    exact ⟨net₁, rfl, hrest₁, rfl, hbefore₁, ⟨hwhere₁ ▸ hroom₁.whereB, fun h => absurd rfl h⟩, hroom₁.alloc, hnr₁, hwhere₁, hc₁, hsize₁⟩
  have hpos := length_pos_iff.2 hnil
  obtain ⟨net₂, hbody, hrest₂, hbuff₂, hmax₂, halloc₂, hsame₂⟩ := readBody_eq hroom₁ hrest₁ (hsize₁.symm ▸ hsize hnil)
  rw [hwhere₁] at hbuff₂ hmax₂
  have hbodymax := Nat.le_max_left body.length complen
  have hcompmax := Nat.le_max_right body.length complen
  refine ⟨net₂, ?_, hrest₂, ?_, fun p hp => ?_, ⟨by omega, fun _ => by omega⟩, halloc₂, ?_, ?_, ?_, ?_⟩
  · rw [if_neg (by omega), hbody]
    rfl
  · rw [Net.fetch, hbuff₂]
    exact fetch_store _ _
  · rw [hbuff₂, store_before _ hp]
    exact hbefore₁ p hp
  · exact (congrArg Net.pktNr hsame₂).trans hnr₁
  · exact (congrArg Net.whereB hsame₂).trans hwhere₁
  · exact (congrArg Net.compress hsame₂).trans hc₁
  exact (congrArg Net.maxPacketSize hsame₂).trans hsize₁

/-! ### Packets without compression -/

theorem nrByte_succ {nr nr' : UInt32} (h : nrByte nr = nrByte nr') : nrByte (nr + 1) = nrByte (nr' + 1) := by
  rw [nrByte, nrByte, UInt32.toUInt8_add, UInt32.toUInt8_add]
  exact congrArg (· + _) h

theorem nrByte_nextNr {nr nr' : UInt32} (h : nrByte nr = nrByte nr') (packet : List UInt8) :
    nrByte (nextNr nr packet) = nrByte (nextNr nr' packet) := by
  rw [nrByte, nrByte, nextNr, nextNr, UInt32.toUInt8_add, UInt32.toUInt8_add]
  exact congrArg (· + _) h

theorem frame_eq (nr : UInt32) (data : List UInt8) : frame nr data = blockHeader false nr data.length 0 ++ data := by
  simp [frame, blockHeader]

theorem readFrame_eq {data rest : List UInt8} {nr : UInt32} (hroom : Room net) (hplain : net.compress = false)
    (hnr : nrByte nr = nrByte net.pktNr) (hbytes : net.vio.bytes = frame nr data ++ rest) (hlen : data.length ≤ maxPacketLength)
    (hsize : data.length < net.maxPacketSize) :
    ∃ net', myRealRead net = .ok (data.length, 0, net') ∧ Got net net' data rest 0 := by
  apply myRealRead_eq hroom hnr _ hlen (Nat.zero_le _) (fun _ => rfl) (fun _ => by simpa using hsize)
  rw [hbytes, frame_eq, hplain, append_assoc]

structure GotPacket (net net' : Net) (pos : Nat) (packet rest : List UInt8) : Prop where
  bytes : net'.vio.bytes = rest
  data : net'.fetch pos packet.length = packet
  before : ∀ p < pos, net'.buff p = net.buff p
  room : pos + packet.length ≤ net'.maxPacket
  alloc : net'.maxPacket + netHeaderSize + compHeaderSize ≤ net'.alloc
  pktNr : net'.pktNr = nextNr net.pktNr packet
  compress : net'.compress = net.compress
  maxPacketSize : net'.maxPacketSize = net.maxPacketSize

theorem Got.packet {data rest : List UInt8} (h : Got net net' data rest 0) (hshort : data.length < maxPacketLength) :
    GotPacket net net' net.whereB data rest :=
  ⟨h.bytes, h.data, h.before, h.room.1, h.alloc, by rw [h.pktNr, nextNr_of_lt _ hshort], h.compress, h.maxPacketSize⟩

theorem Got.packet_append {net₁ net₂ : Net} {packet rest rest' : List UInt8} (hlong : maxPacketLength ≤ packet.length)
    (h : Got net net₁ (packet.take maxPacketLength) rest 0)
    (h' : GotPacket net₁ net₂ (net.whereB + maxPacketLength) (packet.drop maxPacketLength) rest') :
    GotPacket net net₂ net.whereB packet rest' where
  bytes := h'.bytes
  data := by
    have htake : (packet.take maxPacketLength).length = maxPacketLength := length_take_of_le hlong
    have hlen : packet.length = maxPacketLength + (packet.drop maxPacketLength).length := by
      rw [length_drop]
      omega
    have hfirst : net₂.fetch net.whereB maxPacketLength = packet.take maxPacketLength := by
      have hdata := h.data
      rw [htake] at hdata
      rw [← hdata]
      exact fetch_congr fun p _ hp => h'.before p hp
    have hfetch : net₂.fetch net.whereB packet.length = packet.take maxPacketLength ++ packet.drop maxPacketLength := by
      rw [hlen, Net.fetch, fetch_add]
      exact congrArg₂ (· ++ ·) hfirst h'.data
    rw [hfetch, take_append_drop]
  before := fun p hp => (h'.before p (by omega)).trans (h.before p hp)
  room := by
    have hroom := h'.room
    rw [length_drop] at hroom
    omega
  alloc := h'.alloc
  pktNr := by rw [h'.pktNr, h.pktNr, nextNr_of_le _ hlong]
  compress := h'.compress.trans h.compress
  maxPacketSize := h'.maxPacketSize.trans h.maxPacketSize

theorem multiLoop_eq {fuel len total : Nat} {packet rest : List UInt8} {nr : UInt32}
    (hroom : Room { net with whereB := net.whereB + len }) (hplain : net.compress = false) (hnr : nrByte nr = nrByte net.pktNr)
    (hbytes : net.vio.bytes = frames nr packet ++ rest) (hsize : packet.length < net.maxPacketSize)
    (hfuel : fullCount packet < fuel) :
    ∃ len' total' net', multiLoop fuel net len total = .ok (len', total', net') ∧ len' + total' = total + len + packet.length ∧
      GotPacket net net' (net.whereB + len) packet rest := by
  induction fuel generalizing net packet nr len total with
  | zero => omega
  | succ fuel ih =>
    rw [multiLoop]
    by_cases hlong : maxPacketLength ≤ packet.length
    · have htake : (packet.take maxPacketLength).length = maxPacketLength := length_take_of_le hlong
      have htakesize : (packet.take maxPacketLength).length < net.maxPacketSize := by omega
      have hdropsize : (packet.drop maxPacketLength).length < net.maxPacketSize := by rw [length_drop]; omega
      rw [frames_of_le _ hlong, append_assoc] at hbytes
      obtain ⟨net₁, hread, hgot⟩ :=
        @readFrame_eq { net with whereB := net.whereB + len } _ _ nr hroom hplain hnr hbytes htake.le htakesize
      rw [htake] at hread
      have hroom₁ : Room { net₁ with whereB := net₁.whereB + maxPacketLength } :=
        ⟨by rw [hgot.whereB, ← htake]; exact hgot.room.1, hgot.alloc⟩
      rw [fullCount_eq_succ hlong] at hfuel
      obtain ⟨len', total', net', hloop, hsum, hpacket⟩ := @ih net₁ maxPacketLength (total + len) (packet.drop maxPacketLength)
        (nr + 1) hroom₁ (hgot.compress.trans hplain) (by rw [hgot.pktNr]; exact nrByte_succ hnr) hgot.bytes
        (by rw [hgot.maxPacketSize]; exact hdropsize) (by omega)
      refine ⟨len', total', net', ?_, ?_, ?_⟩
      · rw [hread, ok_bind]
        dsimp only
        rw [if_pos rfl]
        exact hloop
      · rw [length_drop] at hsum
        omega
      rw [hgot.whereB] at hpacket
      have hall := hgot.packet_append hlong hpacket
      exact ⟨hall.bytes, hall.data, hall.before, hall.room, hall.alloc, hall.pktNr, hall.compress, hall.maxPacketSize⟩
    have hshort := Nat.lt_of_not_le hlong
    rw [frames_of_lt _ hshort] at hbytes
    obtain ⟨net₁, hread, hgot⟩ := @readFrame_eq { net with whereB := net.whereB + len } _ _ nr hroom hplain hnr hbytes hshort.le hsize
    have hpacket := hgot.packet hshort
    refine ⟨packet.length, total + len, net₁, ?_, by omega, hpacket.bytes, hpacket.data, hpacket.before, hpacket.room,
      hpacket.alloc, hpacket.pktNr, hpacket.compress, hpacket.maxPacketSize⟩
    rw [hread, ok_bind]
    dsimp only
    rw [if_neg hshort.ne]

theorem fullCount_le_length_frames (nr : UInt32) (packet : List UInt8) : fullCount packet < (frames nr packet).length := by
  generalize hk : fullCount packet = k
  rw [frames, hk]
  clear hk
  induction k generalizing nr packet with
  | zero => simp [fullFrames, frame, length_int3store]
  | succ k ih =>
    have hrest := ih (nr + 1) (packet.drop maxPacketLength)
    rw [fullFrames_succ, length_append, frame, length_append, length_append, length_int3store]
    omega

theorem readPlain_eq {packet rest : List UInt8} {nr : UInt32} (hroom : Room net) (hplain : net.compress = false)
    (hnr : nrByte nr = nrByte net.pktNr) (hbytes : net.vio.bytes = frames nr packet ++ rest)
    (hsize : packet.length < net.maxPacketSize) :
    ∃ net', readPlain net = .ok (packet.length, net') ∧ GotPacket net net' net.whereB packet rest ∧ net'.whereB = net.whereB ∧
      net'.readPos = net.whereB := by
  obtain ⟨len₁, net₁, net₂, hread, hmulti, hgot, hwhere⟩ : ∃ len₁ net₁ net₂, myRealRead net = .ok (len₁, 0, net₁) ∧
      readMulti net₁ len₁ = .ok (packet.length, net₂) ∧ GotPacket net net₂ net.whereB packet rest ∧ net₂.whereB = net.whereB := by
    by_cases hlong : maxPacketLength ≤ packet.length
    · have htake : (packet.take maxPacketLength).length = maxPacketLength := length_take_of_le hlong
      rw [frames_of_le _ hlong, append_assoc] at hbytes
      obtain ⟨net₁, hread, hgot⟩ := readFrame_eq hroom hplain hnr hbytes htake.le (by omega)
      have hroom₁ : Room { net₁ with whereB := net₁.whereB + maxPacketLength } :=
        ⟨by rw [hgot.whereB, ← htake]; exact hgot.room.1, hgot.alloc⟩
      have hcount := fullCount_le_length_frames (nr + 1) (packet.drop maxPacketLength)
      obtain ⟨len', total', net', hloop, hsum, hpacket⟩ := @multiLoop_eq net₁ (net₁.vio.bytes.length + 1) maxPacketLength 0
        (packet.drop maxPacketLength) rest (nr + 1) hroom₁ (hgot.compress.trans hplain)
        (by rw [hgot.pktNr]; exact nrByte_succ hnr) hgot.bytes (by rw [hgot.maxPacketSize, length_drop]; omega)
        (by rw [hgot.bytes, length_append]; omega)
      rw [hgot.whereB] at hpacket
      have hall := hgot.packet_append hlong hpacket
      refine ⟨maxPacketLength, net₁, { net' with whereB := net₁.whereB }, htake ▸ hread, ?_,
        ⟨hall.bytes, hall.data, hall.before, hall.room, hall.alloc, hall.pktNr, hall.compress, hall.maxPacketSize⟩, hgot.whereB⟩
      have hlength : len' + total' = packet.length := by
        rw [hsum, length_drop]
        omega
      rw [readMulti, if_pos rfl, hloop, ok_bind]
      dsimp only
      rw [hlength]
    have hshort := Nat.lt_of_not_le hlong
    rw [frames_of_lt _ hshort] at hbytes
    obtain ⟨net₁, hread, hgot⟩ := readFrame_eq hroom hplain hnr hbytes hshort.le hsize
    exact ⟨packet.length, net₁, net₁, hread, if_neg hshort.ne, hgot.packet hshort, hgot.whereB⟩
  have hfits : net₂.whereB + packet.length + 1 ≤ net₂.alloc := by
    have hroom₂ := hgot.room
    have halloc₂ := hgot.alloc
    have hheader : netHeaderSize = 4 := rfl
    omega
  have hcopy : ({ net₂ with readPos := net₂.whereB } : Net).copyTo (net₂.whereB + packet.length) [0] =
      .ok { net₂ with readPos := net₂.whereB, buff := store net₂.buff (net₂.whereB + packet.length) [0] } := if_pos hfits
  rw [readPlain, hread, ok_bind]
  dsimp only
  rw [hmulti, ok_bind]
  rw [hcopy, ok_bind]
  refine ⟨_, rfl, ⟨hgot.bytes, ?_, fun p hp => ?_, hgot.room, hgot.alloc, hgot.pktNr, hgot.compress, hgot.maxPacketSize⟩, hwhere,
    hwhere⟩
  · rw [hwhere]
    exact (fetch_store_before [0] le_rfl).trans hgot.data
  exact (store_before [0] (by rw [hwhere]; omega)).trans (hgot.before p hp)

theorem readPackets_eq {packets : List (List UInt8)} {rest : List UInt8} {nr : UInt32} (hroom : Room net)
    (hplain : net.compress = false) (hnr : nrByte nr = nrByte net.pktNr) (hbytes : net.vio.bytes = stream nr packets ++ rest)
    (hsize : ∀ packet ∈ packets, packet.length < net.maxPacketSize) :
    ∃ net', readPackets z 0 packets.length net = .ok (packets, net') ∧ net'.vio.bytes = rest ∧
      net'.pktNr = lastNr net.pktNr packets := by
  induction packets generalizing net nr with
  | nil => exact ⟨net, rfl, hbytes, rfl⟩
  | cons packet packets ih =>
    rw [stream, append_assoc] at hbytes
    obtain ⟨net₁, hread, hgot, hwhere, hpos⟩ := readPlain_eq hroom hplain hnr hbytes (hsize packet mem_cons_self)
    have hroom₁ : Room net₁ := ⟨by have h := hgot.room; omega, hgot.alloc⟩
    obtain ⟨net', hreads, hrest, hlast⟩ := @ih net₁ (nextNr nr packet) hroom₁ (hgot.compress.trans hplain)
      (by rw [hgot.pktNr]; exact nrByte_nextNr hnr packet) hgot.bytes
      (fun p hp => hgot.maxPacketSize.symm ▸ hsize p (mem_cons_of_mem packet hp))
    refine ⟨net', ?_, hrest, ?_⟩
    · have hnet : myNetRead z 0 net = .ok (packet.length, net₁) := (if_neg (by simp [hplain])).trans hread
      rw [length_cons, readPackets, readPacket, hnet, ok_bind]
      rw [ok_bind, hpos, hgot.data]
      dsimp only
      rw [hreads]
      rfl
    rw [hlast, hgot.pktNr]
    rfl

/-! ### A connection -/

theorem ready_init (vio : Vio) (buff : Nat → UInt8) (maxPacket maxPacketSize : Nat) (compress : Bool) (nr : UInt32) :
    Ready { myNetInit vio buff maxPacket maxPacketSize compress with pktNr := nr } :=
  ⟨Nat.zero_le _, fun _ => Nat.zero_le _, Nat.le_add_right_of_le (Nat.le_add_right _ _)⟩

theorem room_init (vio : Vio) (buff : Nat → UInt8) (maxPacket maxPacketSize : Nat) (compress : Bool) (nr : UInt32) :
    Room { myNetInit vio buff maxPacket maxPacketSize compress with pktNr := nr } :=
  ⟨Nat.zero_le _, le_rfl⟩

theorem sends_plain {ss : List Send} (hready : Ready net) (hempty : net.writePos = 0) (hplain : net.compress = false)
    (hsized : ∀ s ∈ ss, s.Sized) (hfits : ∀ s ∈ ss, s.Fits) : ∃ net', sends z net (ss ++ [.flush]) = .ok net' ∧
      net'.vio.bytes = net.vio.bytes ++ stream net.pktNr (ss.flatMap Send.packets) ∧
        net'.pktNr = lastNr net.pktNr (ss.flatMap Send.packets) := by
  obtain ⟨net₁, gs₁, nrs, hsends, -, hemits₁, hnumbers⟩ := @emits_sends z net ss hready hsized hfits
  obtain ⟨hstream, hnr₁⟩ := hnumbers hplain
  obtain ⟨net', gs, hflush, hemits, hpos, hnr⟩ := @emits_flush z net₁ hemits₁.ready
  have hall := hemits₁.trans hemits
  have hdata := hall.data
  rw [Net.pending_of_empty hpos, Net.pending_of_empty hempty, append_nil, nil_append, append_nil, ← hstream] at hdata
  refine ⟨net', ?_, ?_, ?_⟩
  · rw [sends_append, hsends, ok_bind, sends, send, hflush]
    rfl
  · rw [hall.bytes, hplain, wire_false, hdata]
  rw [hnr, hemits₁.compress, hplain]
  exact hnr₁

/-- Without compression a peer reads the packets that were sent, and the two count alike, exactly when the header of each
command fits into its first frame. -/
theorem readPackets_iff (z : Zlib) (nr : UInt32) (cut cut' : Nat → Nat) (buff buff' : Nat → UInt8)
    (maxPacket maxPacket' maxPacketSize maxPacketSize' : Nat) {ss : List Send} (hsized : ∀ s ∈ ss, s.Sized)
    (hsize : ∀ packet ∈ ss.flatMap Send.packets, packet.length < maxPacketSize') (rest : List UInt8) : (∃ sender receiver,
      sends z { myNetInit ⟨[], cut, 0⟩ buff maxPacket maxPacketSize false with pktNr := nr } (ss ++ [.flush]) = .ok sender ∧
        readPackets z 0 (ss.flatMap Send.packets).length
            { myNetInit ⟨sender.vio.bytes ++ rest, cut', 0⟩ buff' maxPacket' maxPacketSize' false with pktNr := nr } =
          .ok (ss.flatMap Send.packets, receiver) ∧
        receiver.vio.bytes = rest ∧ receiver.pktNr = sender.pktNr) ↔
      ∀ s ∈ ss, s.Fits := by
  constructor
  · rintro ⟨sender, receiver, hsends, -⟩
    by_contra hfits
    have hready := ready_init ⟨[], cut, 0⟩ buff maxPacket maxPacketSize false nr
    rw [sends_append, @sends_fault z _ ss hready hsized hfits] at hsends
    cases hsends
  · intro hfits
    obtain ⟨sender, hsends, hbytes, hnr⟩ := @sends_plain z _ ss (ready_init ⟨[], cut, 0⟩ buff maxPacket maxPacketSize false nr) rfl rfl
      hsized hfits
    have hroom := room_init ⟨sender.vio.bytes ++ rest, cut', 0⟩ buff' maxPacket' maxPacketSize' false nr
    obtain ⟨receiver, hreads, hrest, hlast⟩ := @readPackets_eq z _ (ss.flatMap Send.packets) rest nr hroom rfl rfl
      (congrArg (· ++ rest) hbytes) hsize
    exact ⟨sender, receiver, hsends, hreads, hrest, hlast.trans hnr.symm⟩

theorem readPackets_iff_three : ∃ sender receiver,
      sends ⟨id, fun _ bs => some bs⟩ { myNetInit ⟨[], fun _ => 0, 0⟩ (fun _ => 0) 8 0 false with pktNr := 255 }
          ([.write [1, 2], .command 3 [4] [5, 6], .write []] ++ [.flush]) = .ok sender ∧
        readPackets ⟨id, fun _ bs => some bs⟩ 0 3
            { myNetInit ⟨sender.vio.bytes ++ [], fun _ => 2, 0⟩ (fun _ => 0) 1 5 false with pktNr := 255 } =
          .ok ([[1, 2], [3, 4, 5, 6], []], receiver) ∧
        receiver.vio.bytes = [] ∧ receiver.pktNr = sender.pktNr :=
  (@readPackets_iff ⟨id, fun _ bs => some bs⟩ 255 (fun _ => 0) (fun _ => 2) (fun _ => 0) (fun _ => 0) 8 1 0 5
    [.write [1, 2], .command 3 [4] [5, 6], .write []] (by simp [Send.Sized]) (by simp [Send.packets]) []).2
    (by simp [Send.Fits, maxPacketLength])

/-- A command with a header of 2 ^ 24 - 1 bytes and no data. -/
theorem sends_fault_longHeader : sends ⟨id, fun _ bs => some bs⟩ (myNetInit ⟨[], fun _ => 0, 0⟩ (fun _ => 0) 8192 16384 false)
      [.command 3 (List.replicate maxPacketLength 0) []] = .error .fault := by
  have hready := ready_init ⟨[], fun _ => 0, 0⟩ (fun _ => 0) 8192 16384 false 0
  have hlen : (List.replicate maxPacketLength (0 : UInt8)).length = maxPacketLength := length_replicate
  have hmax : maxPacketLength < 2 ^ 63 := by decide
  apply sends_fault hready
  · intro s hs
    rw [mem_singleton.1 hs, Send.Sized, hlen, length_nil]
    omega
  · intro hfits
    have hheader : (List.replicate maxPacketLength (0 : UInt8)).length < maxPacketLength := hfits _ mem_cons_self
    omega

end Mysql51.Protocol
