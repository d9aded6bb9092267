import Mysql51.Protocol.Read

/-!
# Reading compressed blocks

The buffer of a compressed connection holds the part of the current packet that was passed, without the headers of its later
frames, and behind it bytes that are not parsed yet. Blocks are read behind them as long as the next frame is not complete.
-/

namespace Mysql51.Protocol

open Machine Memory List

/-- What is compressed can be got back, and starts with a header. -/
structure Zlib.Lawful (z : Zlib) : Prop where
  inverts : ∀ packet, z.uncompress packet.length (z.compress packet) = some packet
  nonempty : ∀ packet, z.compress packet ≠ []

variable {z : Zlib} {net net' : Net} {c c' : Cursor}

/-- The buffer has `d`, passed, and `v`, not parsed yet, from `first_packet_offset` on. -/
structure Holds (net : Net) (c : Cursor) (d v : List UInt8) : Prop where
  data : net.fetch c.firstPacketOffset (d ++ v).length = d ++ v
  start : c.startOfPacket = c.firstPacketOffset + d.length
  length : c.bufLength = c.startOfPacket + v.length
  room : c.bufLength ≤ net.maxPacket
  alloc : net.maxPacket + netHeaderSize + compHeaderSize ≤ net.alloc
  compress : net.compress = true

variable {d v rest data : List UInt8} {gs : List (List UInt8)} {nr : UInt32}

theorem Holds.unread (h : Holds net c d v) : net.fetch c.startOfPacket v.length = v := by
  have hdata := h.data
  rw [length_append, Net.fetch, fetch_add, ← h.start] at hdata
  exact (append_inj hdata (by simp)).2

theorem Holds.passed (h : Holds net c d v) : net.fetch c.firstPacketOffset d.length = d := by
  have hdata := h.data
  rw [length_append, Net.fetch, fetch_add] at hdata
  exact (append_inj hdata (by simp)).1

theorem moveDown_eq (h : Holds net c d v) :
    ∃ net' c', moveDown net c = .ok (net', c') ∧ Holds net' c' d v ∧ c'.firstPacketOffset = 0 ∧
      c'.multiBytePacket = c.multiBytePacket ∧ net' = { net with buff := net'.buff } := by
  rw [moveDown]
  by_cases hzero : c.firstPacketOffset = 0
  · rw [if_neg (by simpa using hzero)]
    exact ⟨net, c, rfl, h, hzero, rfl, rfl⟩
  have hn : c.bufLength - c.firstPacketOffset = (d ++ v).length := by
    have hlength := h.length
    have hstart := h.start
    rw [length_append]
    omega
  have hlen : c.firstPacketOffset + (d ++ v).length = c.bufLength := by
    have hlength := h.length
    have hstart := h.start
    rw [length_append]
    omega
  have hroom := h.room
  have halloc := h.alloc
  have hmove : net.memmove 0 c.firstPacketOffset (d ++ v).length = .ok { net with buff := store net.buff 0 (d ++ v) } := by
    rw [Net.memmove, if_pos (by omega), h.data, Net.copyTo, if_pos (by omega)]
  rw [if_pos hzero, hn, hmove, ok_bind]
  refine ⟨_, _, rfl, ⟨@fetch_store net.buff 0 (d ++ v), ?_, ?_, ?_, halloc, h.compress⟩, rfl, rfl, rfl⟩
  · have hstart := h.start
    show c.startOfPacket - c.firstPacketOffset = 0 + d.length
    omega
  · have hstart := h.start
    show (d ++ v).length = c.startOfPacket - c.firstPacketOffset + v.length
    rw [length_append]
    omega
  show (d ++ v).length ≤ net.maxPacket
  omega

theorem myCompress_cases (z : Zlib) (g : List UInt8) :
    myCompress z g = (g, 0) ∨ (myCompress z g = (z.compress g, g.length) ∧ (z.compress g).length < g.length) := by
  rw [myCompress]
  split_ifs with hshort hlong
  · exact .inl rfl
  · exact .inl rfl
  exact .inr ⟨rfl, Nat.lt_of_not_le hlong⟩

theorem compressedBlock_eq (z : Zlib) (nr : UInt32) (g : List UInt8) :
    compressedBlock z nr g = blockHeader true nr (myCompress z g).1.length (myCompress z g).2 ++ (myCompress z g).1 := by
  rw [compressedBlock, blockHeader, if_pos rfl]

theorem uncompress_eq {g : List UInt8} {rest : List UInt8} (hz : z.Lawful) (hroom : Room net) (hc : net.compress = true) (hne : g ≠ [])
    (hlen : g.length ≤ maxPacketLength) (hsize : g.length < net.maxPacketSize)
    (hbytes : net.vio.bytes = compressedBlock z net.pktNr g ++ rest) :
    ∃ net₁ net₂ len complen, myRealRead net = .ok (len, complen, net₁) ∧ myUncompress z net₁ len complen = .ok (g.length, net₂) ∧
      net₂.vio.bytes = rest ∧ net₂.fetch net.whereB g.length = g ∧ (∀ p < net.whereB, net₂.buff p = net.buff p) ∧
        net.whereB + g.length ≤ net₂.maxPacket ∧ net₂.maxPacket + netHeaderSize + compHeaderSize ≤ net₂.alloc ∧
          net₂.pktNr = net.pktNr + 1 ∧ net₂.compress = true ∧ net₂.maxPacketSize = net.maxPacketSize := by
  rw [compressedBlock_eq, append_assoc, ← hc] at hbytes
  rcases myCompress_cases z g with hplain | ⟨hcompressed, hshorter⟩
  · rw [hplain] at hbytes
    obtain ⟨net₁, hread, hgot⟩ := @myRealRead_eq net g rest 0 net.pktNr hroom rfl hbytes hlen (Nat.zero_le _)
      (fun _ => rfl) (fun _ => by simpa using hsize)
    exact ⟨net₁, net₁, _, 0, hread, if_neg (by simp), hgot.bytes, hgot.data, hgot.before, hgot.room.1, hgot.alloc, hgot.pktNr,
      hgot.compress.trans hc, hgot.maxPacketSize⟩
  rw [hcompressed] at hbytes
  have hpos := length_pos_iff.2 hne
  obtain ⟨net₁, hread, hgot⟩ := @myRealRead_eq net (z.compress g) rest g.length net.pktNr hroom rfl hbytes (by omega) hlen
    (fun hfalse => absurd (hc.symm.trans hfalse) (by simp)) (fun _ => by omega)
  have hmax := hgot.room.2 (hz.nonempty g)
  have halloc := hgot.alloc
  have hcopy : net₁.copyTo net₁.whereB g = .ok { net₁ with buff := store net₁.buff net₁.whereB g } := by
    rw [Net.copyTo, if_pos (by rw [hgot.whereB]; omega)]
  refine ⟨net₁, { net₁ with buff := store net₁.buff net₁.whereB g }, _, g.length, hread, ?_, hgot.bytes, ?_, fun p hp => ?_, hmax,
    halloc, hgot.pktNr, hgot.compress.trans hc, hgot.maxPacketSize⟩
  · rw [myUncompress, if_pos hpos.ne', hgot.whereB, hgot.data, hz.inverts g, ← hgot.whereB]
    dsimp only
    rw [hcopy]
    rfl
  · rw [hgot.whereB]
    exact @fetch_store net₁.buff net.whereB g
  rw [← hgot.before p hp]
  exact store_before g (by rw [hgot.whereB]; exact hp)

/-- The blocks of the pieces `gs` are in the socket, and may be read. -/
structure Incoming (z : Zlib) (net : Net) (gs : List (List UInt8)) : Prop where
  bytes : net.vio.bytes = wire z true net.pktNr gs
  nonempty : ∀ g ∈ gs, g ≠ []
  block : ∀ g ∈ gs, g.length ≤ maxPacketLength
  small : ∀ g ∈ gs, g.length < net.maxPacketSize

variable {g f packet : List UInt8}

theorem readBlock_eq (hz : z.Lawful) (h : Holds net c d v) (hin : Incoming z net (g :: gs)) :
    ∃ net' c', readBlock z net c = .ok (net', c') ∧ Holds net' c' d (v ++ g) ∧ Incoming z net' gs ∧ c'.firstPacketOffset = 0 ∧
      c'.multiBytePacket = c.multiBytePacket := by
  obtain ⟨net₁, c₁, hmove, hholds₁, hoffset₁, hmulti₁, hsame₁⟩ := moveDown_eq h
  have hbytes : net₁.vio.bytes = compressedBlock z net₁.pktNr g ++ wire z true (net₁.pktNr + 1) gs := by
    rw [hsame₁]
    exact hin.bytes
  have hlimit : net₁.maxPacketSize = net.maxPacketSize := by rw [hsame₁]
  obtain ⟨net₂, net₃, len, complen, hread, huncompress, hrest, hdata, hbefore, hmax, halloc, hnr, hc, hlimit'⟩ :=
    @uncompress_eq z { net₁ with whereB := c₁.bufLength } g _ hz ⟨hholds₁.room, hholds₁.alloc⟩ hholds₁.compress
      (hin.nonempty g mem_cons_self) (hin.block g mem_cons_self) (hlimit ▸ hin.small g mem_cons_self) hbytes
  have hsize : net₃.maxPacketSize = net.maxPacketSize := hlimit'.trans hlimit
  refine ⟨net₃, { c₁ with bufLength := c₁.bufLength + g.length }, ?_, ?_, ?_, hoffset₁, hmulti₁⟩
  · rw [readBlock, hmove, ok_bind]
    dsimp only
    rw [hread, ok_bind]
    rw [huncompress]
    rfl
  · have hstart := hholds₁.start
    have hlength := hholds₁.length
    refine ⟨?_, hstart, ?_, hmax, halloc, hc⟩
    · have hold : net₃.fetch c₁.firstPacketOffset (d ++ v).length = d ++ v := by
        refine Eq.trans (fetch_congr fun p _ hp => hbefore p ?_) hholds₁.data
        show p < c₁.bufLength
        rw [length_append] at hp
        omega
      have hend : c₁.firstPacketOffset + (d ++ v).length = c₁.bufLength := by
        rw [length_append]
        omega
      rw [← append_assoc, length_append, Net.fetch, fetch_add]
      refine congrArg₂ (· ++ ·) hold ?_
      rw [hend]
      exact hdata
    show c₁.bufLength + g.length = c₁.startOfPacket + (v ++ g).length
    rw [length_append]
    omega
  refine ⟨?_, fun g' hg' => hin.nonempty g' (mem_cons_of_mem g hg'), fun g' hg' => hin.block g' (mem_cons_of_mem g hg'),
    fun g' hg' => hsize.symm ▸ hin.small g' (mem_cons_of_mem g hg')⟩
  rw [hrest, hnr]

theorem readBlock_nil (h : Holds net c d v) (hin : Incoming z net []) : readBlock z net c = .error .netReadError := by
  obtain ⟨net₁, c₁, hmove, hholds₁, hoffset₁, hmulti₁, hsame₁⟩ := moveDown_eq h
  have hbytes : net₁.vio.bytes = [] := by
    rw [hsame₁]
    exact hin.bytes
  have hcompress : net₁.compress = true := hholds₁.compress
  have hread : myRealRead { net₁ with whereB := c₁.bufLength } = .error .netReadError := by
    rw [myRealRead, readHeader]
    simp [hcompress, readLoop, netHeaderSize, compHeaderSize, Vio.read, hbytes]
    rfl
  rw [readBlock, hmove, ok_bind]
  dsimp only
  rw [hread]
  rfl

/-! ### Passing frames -/

theorem Holds.advance (h : Holds net c d (f ++ v))
    (hc : c' = { c with startOfPacket := c.startOfPacket + f.length }) : Holds net c' (d ++ f) v := by
  subst hc
  have hdata := h.data
  have hstart := h.start
  have hlength := h.length
  refine ⟨?_, ?_, ?_, h.room, h.alloc, h.compress⟩
  · rw [← append_assoc] at hdata
    exact hdata
  · rw [length_append, ← add_assoc, ← hstart]
  rw [hlength, length_append]
  exact (add_assoc _ _ _).symm

theorem Holds.uint3korr (h : Holds net c d v) (hv : 3 ≤ v.length) : net.uint3korr c.startOfPacket = ofLeBytes (v.take 3) := by
  have hunread := h.unread
  rw [Net.uint3korr, Net.fetch, ← take_fetch net.buff hv]
  exact congrArg (fun bs => ofLeBytes (bs.take 3)) hunread

theorem take_frame {nr : UInt32} {data v : List UInt8} (hlen : data.length ≤ maxPacketLength) :
    ofLeBytes ((frame nr data ++ v).take 3) = data.length := by
  have htake : (frame nr data ++ v).take 3 = int3store data.length := by
    rw [frame, append_assoc, append_assoc]
    exact take_left' (length_int3store _)
  rw [htake, ofLeBytes_int3store hlen]

theorem length_frame (nr : UInt32) (data : List UInt8) : (frame nr data).length = data.length + netHeaderSize := by
  rw [frame, length_append, length_append, length_int3store, add_comm]
  rfl

theorem passFrame_first (h : Holds net c [] (frame nr data ++ v)) (hmulti : c.multiBytePacket = 0) :
    ∃ c', passFrame net c data.length = .ok (net, c') ∧ Holds net c' (frame nr data) v ∧
      c'.firstPacketOffset = c.firstPacketOffset ∧ c'.multiBytePacket = 0 := by
  refine ⟨_, if_neg (by simpa using hmulti), h.advance ?_, rfl, hmulti⟩
  rw [length_frame, add_assoc]

theorem passFrame_next (h : Holds net c d (frame nr data ++ v)) (hoffset : c.firstPacketOffset = 0)
    (hmulti : c.multiBytePacket ≠ 0) :
    ∃ net' c', passFrame net c data.length = .ok (net', c') ∧ Holds net' c' (d ++ data) v ∧ c'.firstPacketOffset = 0 ∧
      c'.multiBytePacket = c.multiBytePacket ∧ net' = { net with buff := net'.buff } := by
  have hlength := h.length
  have hstart := h.start
  have hroom := h.room
  have halloc := h.alloc
  have hheader : netHeaderSize = 4 := rfl
  have hlen : (frame nr data ++ v).length = netHeaderSize + (data ++ v).length := by
    rw [length_append, length_frame, length_append]
    omega
  rw [hlen] at hlength
  have hbehind : net.fetch (c.startOfPacket + netHeaderSize) (data ++ v).length = data ++ v := by
    have hunread := h.unread
    rw [hlen] at hunread
    have hdrop := congrArg (List.drop netHeaderSize) hunread
    rw [Net.fetch, drop_fetch _ (Nat.le_add_right _ _), Nat.add_sub_cancel_left] at hdrop
    rw [Net.fetch, hdrop, frame, append_assoc]
    exact drop_left' (by rw [length_append, length_int3store]; rfl)
  have hmove : net.memmove (c.firstPacketOffset + c.startOfPacket) (c.firstPacketOffset + c.startOfPacket + netHeaderSize)
      (c.bufLength - c.startOfPacket) = .ok { net with
        buff := store net.buff c.startOfPacket (net.fetch (c.startOfPacket + netHeaderSize) (c.bufLength - c.startOfPacket)) } := by
    rw [hoffset, zero_add, Net.memmove, if_pos (by omega), Net.copyTo, if_pos (by rw [Net.fetch, length_fetch]; omega)]
  -- the move takes four bytes from behind the data with it
  have hmoved : ∃ more, net.fetch (c.startOfPacket + netHeaderSize) (c.bufLength - c.startOfPacket) = data ++ v ++ more := by
    have hcount : c.bufLength - c.startOfPacket = (data ++ v).length + netHeaderSize := by omega
    rw [hcount, Net.fetch, fetch_add]
    exact ⟨_, congrArg (· ++ _) hbehind⟩
  obtain ⟨more, hmoved⟩ := hmoved
  rw [passFrame, if_pos hmulti, hmove, ok_bind, hmoved]
  refine ⟨_, _, rfl, ⟨?_, ?_, ?_, ?_, halloc, h.compress⟩, hoffset, rfl, rfl⟩
  · have hpassed := h.passed
    show Memory.fetch (store net.buff c.startOfPacket (data ++ v ++ more)) c.firstPacketOffset (d ++ data ++ v).length = d ++ data ++ v
    rw [append_assoc d data v, length_append, fetch_add, ← hstart]
    refine congrArg₂ (· ++ ·) (Eq.trans (fetch_store_before _ hstart.ge) hpassed) ?_
    exact @fetch_store_part net.buff c.startOfPacket [] (data ++ v) more
  · rw [length_append, ← add_assoc, ← hstart]
  · show c.bufLength - netHeaderSize = c.startOfPacket + data.length + v.length
    rw [length_append] at hlength
    omega
  show c.bufLength - netHeaderSize ≤ net.maxPacket
  omega

/-! ### The loop -/

/-- A block ends `n` bytes from the start of what is not parsed yet. -/
def Boundary (v : List UInt8) (gs : List (List UInt8)) (n : Nat) : Prop := ∃ k, v.length + (gs.take k).flatten.length = n

theorem boundary_append (n : Nat) : Boundary (f ++ v) gs (f.length + n) ↔ Boundary v gs n := by
  unfold Boundary
  refine exists_congr fun k => ?_
  rw [length_append]
  omega

theorem boundary_cons {n : Nat} (hn : v.length < n) : Boundary v (g :: gs) n ↔ Boundary (v ++ g) gs n := by
  constructor
  · rintro ⟨k, hk⟩
    cases k with
    | zero =>
      rw [take_zero, flatten_nil, length_nil] at hk
      omega
    | succ k =>
      refine ⟨k, ?_⟩
      rw [take_succ_cons, flatten_cons, length_append] at hk
      rw [length_append]
      omega
  rintro ⟨k, hk⟩
  refine ⟨k + 1, ?_⟩
  rw [length_append] at hk
  rw [take_succ_cons, flatten_cons, length_append]
  omega

theorem Holds.left (h : Holds net c d v) : c.bufLength - c.startOfPacket = v.length := by
  rw [h.length, Nat.add_sub_cancel_left]

theorem packetLoop_read {w : List UInt8} (h : Holds net c d v) (hstream : v ++ w = frame nr data ++ rest)
    (hlen : data.length ≤ maxPacketLength) (hshort : v.length < (frame nr data).length) (fuel : Nat) :
    packetLoop z (fuel + 1) net c = readBlock z net c >>= fun r => packetLoop z fuel r.1 r.2 := by
  have hheader : netHeaderSize = 4 := rfl
  rw [length_frame] at hshort
  have hcount : v.length ≥ netHeaderSize → net.uint3korr c.startOfPacket = data.length := by
    intro hv
    have htake := @take_frame nr _ rest hlen
    rw [← hstream, take_append_of_le_length (by omega)] at htake
    rw [h.uint3korr (by omega), htake]
  rw [packetLoop, h.left, if_neg, if_neg]
  · rintro ⟨hv, hfits⟩
    rw [hcount hv] at hfits
    omega
  rintro ⟨hv, hzero⟩
  rw [hcount hv] at hzero
  omega

theorem fill_eq (hz : z.Lawful) (h : Holds net c d v) (hin : Incoming z net gs)
    (hstream : v ++ gs.flatten = frame nr data ++ rest) (hlen : data.length ≤ maxPacketLength) :
    ∃ j net' c' v' gs', (∀ fuel, packetLoop z (fuel + j) net c = packetLoop z fuel net' c') ∧ Holds net' c' d (frame nr data ++ v') ∧
      Incoming z net' gs' ∧ v' ++ gs'.flatten = rest ∧ c'.multiBytePacket = c.multiBytePacket ∧
        (c.firstPacketOffset = 0 → c'.firstPacketOffset = 0) ∧
          ∀ n, Boundary v gs ((frame nr data).length + n) ↔ Boundary v' gs' n := by
  induction gs generalizing net c v with
  | nil =>
    rw [flatten_nil, append_nil] at hstream
    subst hstream
    exact ⟨0, net, c, rest, [], fun _ => rfl, h, hin, append_nil _, rfl, id, boundary_append⟩
  | cons g gs ih =>
    by_cases hcomplete : (frame nr data).length ≤ v.length
    · obtain ⟨v', rfl⟩ : ∃ v', v = frame nr data ++ v' := by
        refine ⟨v.drop (frame nr data).length, ?_⟩
        have htake := congrArg (List.take (frame nr data).length) hstream
        rw [take_append_of_le_length hcomplete, take_left] at htake
        conv_lhs => rw [← take_append_drop (frame nr data).length v, htake]
      rw [append_assoc] at hstream
      exact ⟨0, net, c, v', g :: gs, fun _ => rfl, h, hin, append_cancel_left hstream, rfl, id, boundary_append⟩
    obtain ⟨net₁, c₁, hread, hholds₁, hin₁, hoffset₁, hmulti₁⟩ := readBlock_eq hz h hin
    rw [flatten_cons, ← append_assoc] at hstream
    obtain ⟨j, net', c', v', gs', hloop, hholds, hin', hrest, hmulti, hoffset, hboundary⟩ := ih hholds₁ hin₁ hstream
    refine ⟨j + 1, net', c', v', gs', fun fuel => ?_, hholds, hin', hrest, hmulti.trans hmulti₁, fun _ => hoffset hoffset₁,
      fun n => (boundary_cons (by omega)).trans (hboundary n)⟩
    rw [append_assoc] at hstream
    rw [← hloop fuel, ← add_assoc, packetLoop_read h hstream hlen (Nat.lt_of_not_le hcomplete), hread]
    rfl

theorem packetLoop_zero (h : Holds net c d (frame nr [] ++ v)) (fuel : Nat) :
    packetLoop z (fuel + 1) net c = .ok (net, { c with startOfPacket := c.startOfPacket + netHeaderSize }) := by
  have hlen : netHeaderSize ≤ (frame nr [] ++ v).length := by
    rw [length_append, length_frame]
    exact Nat.le_add_right_of_le (Nat.le_add_left _ _)
  have hheader : netHeaderSize = 4 := rfl
  rw [packetLoop, h.left, if_pos]
  exact ⟨hlen, by rw [h.uint3korr (by omega), take_frame (Nat.zero_le _)]; rfl⟩

theorem packetLoop_pass (h : Holds net c d (frame nr data ++ v)) (hne : data ≠ []) (hlen : data.length ≤ maxPacketLength)
    (fuel : Nat) : packetLoop z (fuel + 1) net c = passFrame net c data.length >>= fun r =>
      if data.length ≠ maxPacketLength then .ok (r.1, { r.2 with multiBytePacket := 0 })
      else moveDown r.1 { r.2 with multiBytePacket := netHeaderSize } >>= fun r => packetLoop z fuel r.1 r.2 := by
  have hpos := length_pos_iff.2 hne
  have hheader : netHeaderSize = 4 := rfl
  have hall : data.length + netHeaderSize ≤ (frame nr data ++ v).length := by
    rw [length_append, length_frame]
    omega
  have hcount : net.uint3korr c.startOfPacket = data.length := by rw [h.uint3korr (by omega), take_frame hlen]
  rw [packetLoop, h.left, hcount, if_neg (by omega), if_pos ⟨by omega, hall⟩]

def EndsEmpty (packet : List UInt8) : Prop := packet ≠ [] ∧ packet.length % maxPacketLength = 0
deriving Decidable

theorem moveDown_zero (hoffset : c.firstPacketOffset = 0) : moveDown net c = .ok (net, c) := if_neg (by simpa using hoffset)

theorem Holds.setMulti (h : Holds net c d v) (n : Nat) : Holds net { c with multiBytePacket := n } d v :=
  ⟨h.data, h.start, h.length, h.room, h.alloc, h.compress⟩

theorem Incoming.of_buff (h : Incoming z net gs) (hsame : net' = { net with buff := net'.buff }) : Incoming z net' gs := by
  rw [hsame]
  exact ⟨h.bytes, h.nonempty, h.block, h.small⟩

theorem packetLoop_later {k : Nat} (hz : z.Lawful) (h : Holds net c d v) (hin : Incoming z net gs)
    (hoffset : c.firstPacketOffset = 0) (hmulti : c.multiBytePacket = netHeaderSize) (hk : fullCount packet = k)
    (hstream : v ++ gs.flatten = frames nr packet ++ rest) :
    ∃ j net' c' v' gs' tail, (∀ fuel, packetLoop z (fuel + j) net c = .ok (net', c')) ∧ Holds net' c' (d ++ packet ++ tail) v' ∧
      Incoming z net' gs' ∧ v' ++ gs'.flatten = rest ∧ c'.firstPacketOffset = 0 ∧ c'.multiBytePacket = tail.length ∧
        (if packet.length % maxPacketLength = 0 then ∃ nr', tail = frame nr' [] else tail = []) ∧
          ∀ n, Boundary v gs ((frames nr packet).length + n) ↔ Boundary v' gs' n := by
  induction k generalizing net c d v packet nr gs with
  | zero =>
    have hshort : packet.length < maxPacketLength := by
      by_contra hlong
      rw [fullCount_eq_succ (Nat.le_of_not_lt hlong)] at hk
      omega
    rw [frames_of_lt _ hshort] at hstream ⊢
    obtain ⟨j, net₁, c₁, v₁, gs₁, hloop, hholds₁, hin₁, hrest, hmulti₁, hoffset₁, hboundary⟩ :=
      fill_eq hz h hin hstream hshort.le
    by_cases hnil : packet = []
    · subst hnil
      refine ⟨1 + j, net₁, { c₁ with startOfPacket := c₁.startOfPacket + netHeaderSize }, v₁, gs₁, frame nr [], fun fuel => ?_, ?_,
        hin₁, hrest, hoffset₁ hoffset, hmulti₁.trans hmulti, ?_, hboundary⟩
      · rw [← add_assoc, hloop (fuel + 1), packetLoop_zero hholds₁]
      · rw [append_nil]
        exact hholds₁.advance rfl
      rw [length_nil, if_pos (Nat.zero_mod _)]
      exact ⟨nr, rfl⟩
    obtain ⟨net₂, c₂, hpass, hholds₂, hoffset₂, -, hsame₂⟩ := passFrame_next hholds₁ (hoffset₁ hoffset)
      (by rw [hmulti₁, hmulti]; decide)
    have hpos := length_pos_iff.2 hnil
    refine ⟨1 + j, net₂, { c₂ with multiBytePacket := 0 }, v₁, gs₁, [], fun fuel => ?_, ?_, hin₁.of_buff hsame₂, hrest, hoffset₂, rfl,
      ?_, hboundary⟩
    · rw [← add_assoc, hloop (fuel + 1), packetLoop_pass hholds₁ hnil hshort.le, hpass, ok_bind, if_pos hshort.ne]
    · rw [append_nil]
      exact hholds₂.setMulti 0
    rw [if_neg (by rw [Nat.mod_eq_of_lt hshort]; omega)]
  | succ k ih =>
    have hlong : maxPacketLength ≤ packet.length := by
      by_contra hshort
      rw [fullCount_eq_zero (Nat.lt_of_not_le hshort)] at hk
      omega
    have htake : (packet.take maxPacketLength).length = maxPacketLength := length_take_of_le hlong
    have hne : packet.take maxPacketLength ≠ [] := length_pos_iff.1 (htake.symm ▸ maxPacketLength_pos)
    rw [fullCount_eq_succ hlong, Nat.add_right_cancel_iff] at hk
    rw [frames_of_le _ hlong, append_assoc] at hstream
    obtain ⟨j₁, net₁, c₁, v₁, gs₁, hloop₁, hholds₁, hin₁, hrest₁, hmulti₁, hoffset₁, hboundary₁⟩ :=
      fill_eq hz h hin hstream htake.le
    obtain ⟨net₂, c₂, hpass, hholds₂, hoffset₂, hmulti₂, hsame₂⟩ := passFrame_next hholds₁ (hoffset₁ hoffset)
      (by rw [hmulti₁, hmulti]; decide)
    obtain ⟨j, net', c', v', gs', tail, hloop, hholds, hin', hrest, hoffset', hmulti', htail, hboundary⟩ :=
      ih (hholds₂.setMulti netHeaderSize) (hin₁.of_buff hsame₂) hoffset₂ rfl hk hrest₁
    refine ⟨j + 1 + j₁, net', c', v', gs', tail, fun fuel => ?_, ?_, hin', hrest, hoffset', hmulti', ?_, fun n => ?_⟩
    · have hmove : moveDown net₂ { c₂ with multiBytePacket := netHeaderSize } =
          .ok (net₂, { c₂ with multiBytePacket := netHeaderSize }) := moveDown_zero hoffset₂
      rw [← add_assoc, hloop₁, ← add_assoc, packetLoop_pass hholds₁ hne htake.le, hpass, ok_bind, if_neg (by rw [htake]; simp)]
      rw [hmove, ok_bind]
      exact hloop fuel
    · rw [append_assoc d, take_append_drop] at hholds
      exact hholds
    · rwa [length_drop, ← Nat.mod_eq_sub_mod hlong] at htail
    rw [frames_of_le _ hlong, length_append, add_assoc]
    exact (hboundary₁ _).trans (hboundary n)

theorem packetLoop_eq (hz : z.Lawful) (h : Holds net c [] v) (hin : Incoming z net gs)
    (hmulti : c.multiBytePacket = 0) (hstream : v ++ gs.flatten = frames nr packet ++ rest) :
    ∃ j net' c' v' gs' header tail, (∀ fuel, packetLoop z (fuel + j) net c = .ok (net', c')) ∧ header.length = netHeaderSize ∧
      Holds net' c' (header ++ packet ++ tail) v' ∧ Incoming z net' gs' ∧ v' ++ gs'.flatten = rest ∧
        c'.multiBytePacket = tail.length ∧ (if EndsEmpty packet then ∃ nr', tail = frame nr' [] else tail = []) ∧
          ∀ n, Boundary v gs ((frames nr packet).length + n) ↔ Boundary v' gs' n := by
  have hheader : ∀ data, frame nr data = (int3store data.length ++ [nrByte nr]) ++ data := fun _ => rfl
  have hheaderlen : ∀ n, (int3store n ++ [nrByte nr]).length = netHeaderSize := fun n => by
    rw [length_append, length_int3store]
    rfl
  by_cases hlong : maxPacketLength ≤ packet.length
  · have htake : (packet.take maxPacketLength).length = maxPacketLength := length_take_of_le hlong
    have hne : packet.take maxPacketLength ≠ [] := length_pos_iff.1 (htake.symm ▸ maxPacketLength_pos)
    have hpacket : packet ≠ [] := length_pos_iff.1 (maxPacketLength_pos.trans_le hlong)
    rw [frames_of_le _ hlong, append_assoc] at hstream
    obtain ⟨j₁, net₁, c₁, v₁, gs₁, hloop₁, hholds₁, hin₁, hrest₁, hmulti₁, -, hboundary₁⟩ := fill_eq hz h hin hstream htake.le
    obtain ⟨c₂, hpass, hholds₂, -, -⟩ := passFrame_first hholds₁ (hmulti₁.trans hmulti)
    obtain ⟨net₃, c₃, hmove, hholds₃, hoffset₃, hmulti₃, hsame₃⟩ := moveDown_eq (hholds₂.setMulti netHeaderSize)
    obtain ⟨j, net', c', v', gs', tail, hloop, hholds, hin', hrest, -, hmulti', htail, hboundary⟩ :=
      packetLoop_later hz hholds₃ (hin₁.of_buff hsame₃) hoffset₃ hmulti₃ rfl hrest₁
    refine ⟨j + 1 + j₁, net', c', v', gs', int3store (packet.take maxPacketLength).length ++ [nrByte nr], tail, fun fuel => ?_,
      hheaderlen _, ?_, hin', hrest, hmulti', ?_, fun n => ?_⟩
    · rw [← add_assoc, hloop₁, ← add_assoc, packetLoop_pass hholds₁ hne htake.le, hpass, ok_bind, if_neg (by rw [htake]; simp)]
      rw [hmove, ok_bind]
      exact hloop fuel
    · rwa [hheader, append_assoc _ (packet.take maxPacketLength), take_append_drop] at hholds
    · rw [length_drop, ← Nat.mod_eq_sub_mod hlong] at htail
      by_cases hzero : packet.length % maxPacketLength = 0
      · rw [if_pos ⟨hpacket, hzero⟩]
        rwa [if_pos hzero] at htail
      rw [if_neg fun hends => hzero hends.2]
      rwa [if_neg hzero] at htail
    rw [frames_of_le _ hlong, length_append, add_assoc]
    exact (hboundary₁ _).trans (hboundary n)
  have hshort := Nat.lt_of_not_le hlong
  have hends : ¬ EndsEmpty packet := by
    rintro ⟨hpacket, hzero⟩
    rw [Nat.mod_eq_of_lt hshort] at hzero
    exact hpacket (length_eq_zero_iff.1 hzero)
  rw [frames_of_lt _ hshort] at hstream ⊢
  obtain ⟨j, net₁, c₁, v₁, gs₁, hloop, hholds₁, hin₁, hrest, hmulti₁, -, hboundary⟩ := fill_eq hz h hin hstream hshort.le
  by_cases hnil : packet = []
  · subst hnil
    refine ⟨1 + j, net₁, { c₁ with startOfPacket := c₁.startOfPacket + netHeaderSize }, v₁, gs₁, frame nr [], [], fun fuel => ?_,
      length_frame nr [], hholds₁.advance rfl, hin₁, hrest, hmulti₁.trans hmulti, if_neg hends ▸ rfl, hboundary⟩
    rw [← add_assoc, hloop (fuel + 1), packetLoop_zero hholds₁]
  obtain ⟨c₂, hpass, hholds₂, -, hmulti₂⟩ := passFrame_first hholds₁ (hmulti₁.trans hmulti)
  refine ⟨1 + j, net₁, { c₂ with multiBytePacket := 0 }, v₁, gs₁, int3store packet.length ++ [nrByte nr], [], fun fuel => ?_,
    hheaderlen _, ?_, hin₁, hrest, rfl, if_neg hends ▸ rfl, hboundary⟩
  · rw [← add_assoc, hloop (fuel + 1), packetLoop_pass hholds₁ hnil hshort.le, hpass, ok_bind, if_pos hshort.ne]
  rw [append_nil]
  exact hholds₂.setMulti 0

end Mysql51.Protocol
