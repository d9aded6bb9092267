import Mysql51.Protocol.Net

/-!
# What is written

The frames of the packets are the bytes that go through the write buffer, in one piece after another. With compression each
piece goes out as a block, without it as it is.
-/

namespace Mysql51.Protocol

open Machine Memory List

variable {z : Zlib} {net net' net'' : Net}

/-! ### Frames and blocks -/

def frame (nr : UInt32) (data : List UInt8) : List UInt8 := int3store data.length ++ [nrByte nr] ++ data

def fullFrames : Nat → UInt32 → List UInt8 → List UInt8
  | 0, nr, packet => frame nr packet
  | k + 1, nr, packet => frame nr (packet.take maxPacketLength) ++ fullFrames k (nr + 1) (packet.drop maxPacketLength)

def fullCount (packet : List UInt8) : Nat := packet.length / maxPacketLength

def frames (nr : UInt32) (packet : List UInt8) : List UInt8 := fullFrames (fullCount packet) nr packet

/-- The bytes that are sent for the pieces that the buffer was written in. -/
def wire (z : Zlib) (compress : Bool) : UInt32 → List (List UInt8) → List UInt8
  | _, [] => []
  | nr, g :: gs => if compress then compressedBlock z nr g ++ wire z compress (nr + 1) gs else g ++ wire z compress nr gs

theorem wire_append (compress : Bool) (nr : UInt32) (gs hs : List (List UInt8)) :
    wire z compress nr (gs ++ hs) = wire z compress nr gs ++
      wire z compress (if compress then nr + UInt32.ofNat gs.length else nr) hs := by
  induction gs generalizing nr with
  | nil => cases compress <;> simp [wire]
  | cons g gs ih =>
    cases compress with
    | false => simpa [wire] using ih nr
    | true =>
      have hnr : nr + 1 + UInt32.ofNat gs.length = nr + UInt32.ofNat (gs.length + 1) := by
        rw [UInt32.ofNat_add, UInt32.add_assoc, UInt32.add_comm 1]
        rfl
      have hrest := ih (nr + 1)
      simp only [if_true, hnr] at hrest
      simp only [cons_append, wire, if_true, hrest, append_assoc, length_cons]

theorem wire_false (nr : UInt32) (gs : List (List UInt8)) : wire z false nr gs = gs.flatten := by
  induction gs with
  | nil => rfl
  | cons g gs ih => simpa [wire] using ih

/-! ### The write buffer -/

def Net.pending (net : Net) : List UInt8 := net.fetch 0 net.writePos

/-- The write buffer has not more in it than can be written at once. -/
structure Ready (net : Net) : Prop where
  fits : net.writePos ≤ net.maxPacket
  block : net.compress = true → net.writePos ≤ maxPacketLength
  alloc : net.maxPacket ≤ net.alloc

structure Emits (z : Zlib) (net net' : Net) (data : List UInt8) (gs : List (List UInt8)) : Prop where
  bytes : net'.vio.bytes = net.vio.bytes ++ wire z net.compress net.compressPktNr gs
  nr : net'.compressPktNr = if net.compress then net.compressPktNr + UInt32.ofNat gs.length else net.compressPktNr
  data : gs.flatten ++ net'.pending = net.pending ++ data
  nonempty : ∀ g ∈ gs, g ≠ []
  block : net.compress = true → ∀ g ∈ gs, g.length ≤ maxPacketLength
  ready : Ready net'
  compress : net'.compress = net.compress

theorem Emits.trans {d d' : List UInt8} {gs gs' : List (List UInt8)} (h : Emits z net net' d gs) (h' : Emits z net' net'' d' gs') :
    Emits z net net'' (d ++ d') (gs ++ gs') where
  bytes := by rw [h'.bytes, h.bytes, h.compress, h.nr, wire_append, append_assoc]
  nr := by
    rw [h'.nr, h.nr, h.compress]
    cases net.compress with
    | false => rfl
    | true => simp [UInt32.ofNat_add, UInt32.add_assoc]
  data := by rw [flatten_append, append_assoc, h'.data, ← append_assoc, h.data, append_assoc]
  nonempty := by
    intro g hg
    rcases mem_append.1 hg with hg | hg
    · exact h.nonempty g hg
    · exact h'.nonempty g hg
  block := by
    intro hc g hg
    rcases mem_append.1 hg with hg | hg
    · exact h.block hc g hg
    · exact h'.block (h.compress.trans hc) g hg
  ready := h'.ready
  compress := h'.compress.trans h.compress

variable {packet : List UInt8}

theorem Vio.write_eq (vio : Vio) (hne : packet ≠ []) :
    ∃ n vio', vio.write packet = (n, vio') ∧ 0 < n ∧ vio'.bytes = vio.bytes ++ packet.take n := by
  have hpos := length_pos_iff.2 hne
  exact ⟨_, _, rfl, by omega, rfl⟩

theorem writeLoop_eq {fuel : Nat} {packet : List UInt8} (hfuel : packet.length ≤ fuel) (vio : Vio) :
    ∃ vio', writeLoop fuel packet vio = .ok vio' ∧ vio'.bytes = vio.bytes ++ packet := by
  induction fuel generalizing packet vio with
  | zero =>
    obtain rfl : packet = [] := length_eq_zero_iff.1 (Nat.le_zero.1 hfuel)
    exact ⟨vio, rfl, (append_nil _).symm⟩
  | succ fuel ih =>
    by_cases hnil : packet = []
    · subst hnil
      exact ⟨vio, rfl, (append_nil _).symm⟩
    obtain ⟨n, vio₁, hwrite, hpos, hbytes₁⟩ := vio.write_eq hnil
    obtain ⟨vio', hloop, hbytes⟩ := @ih (packet.drop n) (by rw [length_drop]; omega) vio₁
    rw [writeLoop, if_neg hnil, hwrite]
    dsimp only
    rw [if_neg hpos.ne']
    exact ⟨vio', hloop, by rw [hbytes, hbytes₁, append_assoc, take_append_drop]⟩

theorem wire_singleton (compress : Bool) (nr : UInt32) (g : List UInt8) :
    wire z compress nr [g] = if compress then compressedBlock z nr g else g := by
  cases compress <;> simp [wire]

/-- One piece is sent, and nothing but what is in the buffer changes. -/
structure Sends (z : Zlib) (net net' : Net) (packet : List UInt8) : Prop where
  bytes : net'.vio.bytes = net.vio.bytes ++ wire z net.compress net.compressPktNr [packet]
  nr : net'.compressPktNr = if net.compress then net.compressPktNr + 1 else net.compressPktNr
  same : net' = { net with vio := net'.vio, compressPktNr := net'.compressPktNr, buff := net'.buff }

theorem netRealWrite_eq (z : Zlib) (net : Net) (packet : List UInt8) :
    ∃ net', netRealWrite z net packet = .ok net' ∧ Sends z net net' packet := by
  rw [netRealWrite]
  by_cases hc : net.compress = true
  · obtain ⟨vio', hloop, hbytes⟩ := @writeLoop_eq (compressedBlock z net.compressPktNr packet).length
      (compressedBlock z net.compressPktNr packet) le_rfl net.vio
    rw [if_pos hc]
    dsimp only
    rw [hloop]
    refine ⟨_, rfl, ?_, (if_pos hc).symm, rfl⟩
    rw [wire_singleton, if_pos hc]
    exact hbytes
  obtain ⟨vio', hloop, hbytes⟩ := @writeLoop_eq packet.length packet le_rfl net.vio
  rw [if_neg hc, hloop]
  refine ⟨_, rfl, ?_, (if_neg hc).symm, rfl⟩
  rw [wire_singleton, if_neg hc]
  exact hbytes

theorem Net.pending_of_empty (h : net.writePos = 0) : net.pending = [] := by rw [Net.pending, h]; rfl

theorem Emits.refl (hready : Ready net) : Emits z net net [] [] :=
  ⟨(append_nil _).symm, by cases net.compress <;> simp, by simp, fun _ hg => absurd hg not_mem_nil,
    fun _ _ hg => absurd hg not_mem_nil, hready, rfl⟩

/-- A piece is written: what is in the buffer with the data behind it, and the buffer is empty then. -/
theorem Sends.emits {packet data : List UInt8} (h : Sends z net net' packet) (hready : Ready net) (hne : packet ≠ [])
    (hblock : net.compress = true → packet.length ≤ maxPacketLength) (hdata : packet = net.pending ++ data) :
    Emits z net { net' with writePos := 0 } data [packet] where
  bytes := h.bytes
  nr := by rw [h.nr]; rfl
  data := by
    rw [Net.pending_of_empty rfl, append_nil, ← hdata]
    simp
  nonempty := by simpa using hne
  block := by simpa using hblock
  ready := by
    rw [h.same]
    exact ⟨Nat.zero_le _, fun _ => Nat.zero_le _, hready.alloc⟩
  compress := by rw [h.same]

theorem Ready.left (h : Ready net) : net.writePos + net.leftLength ≤ net.maxPacket ∧
    (net.compress = true → net.writePos + net.leftLength ≤ maxPacketLength) := by
  have hpos := h.fits
  have hblock := h.block
  rw [Net.leftLength]
  split_ifs with hmax
  · have hle := hblock hmax.1
    omega
  refine ⟨by omega, fun hc => ?_⟩
  have hmax' := (not_and.1 hmax) hc
  omega

theorem emits_append {packet : List UInt8} (hready : Ready net) (hfits : packet.length ≤ net.leftLength) :
    ∃ net', net.append packet = .ok net' ∧ Emits z net net' packet [] ∧ net'.pktNr = net.pktNr ∧
      net'.maxPacket = net.maxPacket := by
  obtain ⟨hmax, hblock⟩ := hready.left
  have hleft : net.writePos + packet.length ≤ net.maxPacket ∧
      (net.compress = true → net.writePos + packet.length ≤ maxPacketLength) :=
    ⟨by omega, fun hc => (Nat.add_le_add_left hfits _).trans (hblock hc)⟩
  have hcopy : net.copyTo net.writePos packet = .ok { net with buff := store net.buff net.writePos packet } :=
    if_pos (hleft.1.trans hready.alloc)
  rw [Net.append, hcopy]
  refine ⟨_, rfl, ⟨?_, ?_, ?_, ?_, ?_, ⟨hleft.1, hleft.2, hready.alloc⟩, rfl⟩, rfl, rfl⟩
  · exact (append_nil _).symm
  · cases net.compress <;> simp
  · have hfetch := @fetch_store_append net.buff 0 net.writePos packet
    rw [zero_add] at hfetch
    exact hfetch
  · exact fun g hg => absurd hg not_mem_nil
  exact fun _ g hg => absurd hg not_mem_nil

theorem emits_fill {packet : List UInt8} (hready : Ready net) (hlong : packet.length > net.leftLength) :
    ∃ net' rest gs taken, fillBuff z net packet = .ok (net', rest) ∧ Emits z net net' taken gs ∧ packet = taken ++ rest ∧
      net'.writePos = 0 ∧ net'.maxPacket = net.maxPacket ∧ net'.pktNr = net.pktNr := by
  rw [fillBuff]
  by_cases hpos : net.writePos = 0
  · rw [if_neg (by simpa using hpos)]
    exact ⟨net, packet, [], [], rfl, .refl hready, rfl, hpos, rfl, rfl⟩
  obtain ⟨hmax, hblock⟩ := hready.left
  have htake := length_take_of_le hlong.le
  have hcopy : net.copyTo net.writePos (packet.take net.leftLength) =
      .ok { net with buff := store net.buff net.writePos (packet.take net.leftLength) } :=
    if_pos (by rw [htake]; exact hmax.trans hready.alloc)
  have hpiece : Memory.fetch (store net.buff net.writePos (packet.take net.leftLength)) 0 (net.writePos + net.leftLength) =
      net.pending ++ packet.take net.leftLength := by
    have hfetch := @fetch_store_append net.buff 0 net.writePos (packet.take net.leftLength)
    rwa [zero_add, htake] at hfetch
  obtain ⟨net', hwrite, hsends⟩ := netRealWrite_eq z
    { net with buff := store net.buff net.writePos (packet.take net.leftLength) } (net.pending ++ packet.take net.leftLength)
  have hsends' : Sends z net net' (net.pending ++ packet.take net.leftLength) := ⟨hsends.bytes, hsends.nr, hsends.same⟩
  have hlen : (net.pending ++ packet.take net.leftLength).length = net.writePos + net.leftLength := by
    rw [length_append, htake, Net.pending, Net.fetch, length_fetch]
  rw [if_pos hpos]
  dsimp only
  rw [hcopy]
  refine ⟨_, packet.drop net.leftLength, _, packet.take net.leftLength, ?_,
    hsends'.emits hready ?_ (fun hc => hlen ▸ hblock hc) rfl, (take_append_drop _ _).symm, rfl, ?_, ?_⟩
  · show (netRealWrite z _ (Memory.fetch _ 0 _) >>= _) = _
    rw [hpiece, hwrite]
    rfl
  · intro hnil
    rw [hnil, length_nil] at hlen
    omega
  · rw [hsends'.same]
  rw [hsends'.same]

theorem emits_piece {packet : List UInt8} (hready : Ready net) (hempty : net.writePos = 0) (hne : packet ≠ [])
    (hblock : net.compress = true → packet.length ≤ maxPacketLength) :
    ∃ net', netRealWrite z net packet = .ok net' ∧ Emits z net net' packet [packet] ∧ net'.writePos = 0 ∧
      net'.maxPacket = net.maxPacket ∧ net'.pktNr = net.pktNr := by
  obtain ⟨net', hwrite, hsends⟩ := netRealWrite_eq z net packet
  have hpos : net'.writePos = 0 := by rw [hsends.same]; exact hempty
  have hemits := hsends.emits hready hne hblock (by rw [Net.pending_of_empty hempty]; rfl)
  rw [← hpos] at hemits
  exact ⟨net', hwrite, hemits, hpos, by rw [hsends.same], by rw [hsends.same]⟩

theorem emits_full {fuel : Nat} {packet : List UInt8} (hready : Ready net) (hempty : net.writePos = 0) (hfuel : packet.length ≤ fuel) :
    ∃ net' rest gs taken, writeFull z fuel net packet = .ok (net', rest) ∧ Emits z net net' taken gs ∧ packet = taken ++ rest ∧
      rest.length ≤ maxPacketLength ∧ net'.writePos = 0 ∧ net'.maxPacket = net.maxPacket ∧ net'.pktNr = net.pktNr := by
  induction fuel generalizing net packet with
  | zero => exact ⟨net, packet, [], [], rfl, .refl hready, rfl, by omega, hempty, rfl, rfl⟩
  | succ fuel ih =>
    rw [writeFull]
    by_cases hlong : packet.length > maxPacketLength
    · have htake := length_take_of_le hlong.le
      have hmax : 0 < maxPacketLength := by decide
      have hne := length_pos_iff.1 (htake.symm ▸ hmax)
      obtain ⟨net₁, hwrite, hemits₁, hpos₁, hmax₁, hnr₁⟩ := emits_piece (z := z) hready hempty hne fun _ => htake.le
      obtain ⟨net', rest, gs, taken, hfull, hemits, hrest, hle, hpos, hmax', hnr⟩ :=
        @ih net₁ (packet.drop maxPacketLength) hemits₁.ready hpos₁ (by rw [length_drop]; omega)
      refine ⟨net', rest, _, _, ?_, hemits₁.trans hemits, ?_, hle, hpos, hmax'.trans hmax₁, hnr.trans hnr₁⟩
      · rw [if_pos hlong, hwrite]
        exact hfull
      rw [append_assoc, ← hrest, take_append_drop]
    rw [if_neg hlong]
    exact ⟨net, packet, [], [], rfl, .refl hready, rfl, by omega, hempty, rfl, rfl⟩

/-- Behind the part of `net_write_buff` that fills the buffer, with or without compression. -/
theorem emits_blocks {packet : List UInt8} (hready : Ready net) (hempty : net.writePos = 0) :
    ∃ net' rest gs taken, writeBlocks z net packet = .ok (net', rest) ∧
      Emits z net net' taken gs ∧ packet = taken ++ rest ∧ (net.compress = true → rest.length ≤ maxPacketLength) ∧
        net'.writePos = 0 ∧ net'.maxPacket = net.maxPacket ∧ net'.pktNr = net.pktNr := by
  by_cases hc : net.compress = true
  · obtain ⟨net', rest, gs, taken, hfull, hemits, hrest, hle, h⟩ := @emits_full z net packet.length packet hready hempty le_rfl
    exact ⟨net', rest, gs, taken, (if_pos hc).trans hfull, hemits, hrest, fun _ => hle, h⟩
  exact ⟨net, packet, [], [], if_neg hc, .refl hready, rfl, fun h => absurd h hc, hempty, rfl, rfl⟩

theorem emits_writeBuff (hready : Ready net) (packet : List UInt8) :
    ∃ net' gs, netWriteBuff z net packet = .ok net' ∧ Emits z net net' packet gs ∧ net'.pktNr = net.pktNr := by
  rw [netWriteBuff]
  by_cases hlong : packet.length > net.leftLength
  · obtain ⟨net₁, rest₁, gs₁, taken₁, hfill, hemits₁, rfl, hpos₁, hmax₁, hnr₁⟩ := @emits_fill z net packet hready hlong
    obtain ⟨net₂, rest₂, gs₂, taken₂, hblocks, hemits₂, rfl, hle, hpos₂, hmax₂, hnr₂⟩ :=
      @emits_blocks z net₁ rest₁ hemits₁.ready hpos₁
    have hemits := hemits₁.trans hemits₂
    rw [if_pos hlong, hfill, ok_bind]
    dsimp only
    rw [hblocks, ok_bind]
    by_cases hbig : rest₂.length > net₂.maxPacket
    · have hne : rest₂ ≠ [] := length_pos_iff.1 (by omega)
      obtain ⟨net', hwrite, hemits', -, -, hnr'⟩ := @emits_piece z net₂ rest₂ hemits.ready hpos₂ hne fun hc =>
        hle (hemits₂.compress ▸ hc)
      rw [if_pos hbig, ← append_assoc]
      exact ⟨net', _, hwrite, hemits.trans hemits', by rw [hnr', hnr₂, hnr₁]⟩
    have hfits : rest₂.length ≤ net₂.leftLength := by
      rw [Net.leftLength, hpos₂]
      split_ifs with hmax
      · exact hle (hemits₂.compress ▸ hmax.1)
      · omega
    obtain ⟨net', happend, hemits', hnr', -⟩ := @emits_append z net₂ rest₂ hemits.ready hfits
    rw [if_neg hbig, ← append_assoc]
    exact ⟨net', _, happend, hemits.trans hemits', by rw [hnr', hnr₂, hnr₁]⟩
  rw [if_neg hlong]
  obtain ⟨net', happend, hemits, hnr, -⟩ := emits_append (z := z) hready (Nat.le_of_not_lt hlong)
  exact ⟨net', [], happend, hemits, hnr⟩

theorem emits_flush (hready : Ready net) : ∃ net' gs, netFlush z net = .ok net' ∧ Emits z net net' [] gs ∧ net'.writePos = 0 ∧
      net'.pktNr = if net.compress then net'.compressPktNr else net.pktNr := by
  obtain ⟨net₁, gs, hflush, hemits, hpos, hnr⟩ : ∃ net₁ gs, flushBuff z net = .ok net₁ ∧ Emits z net net₁ [] gs ∧
      net₁.writePos = 0 ∧ net₁.pktNr = net.pktNr := by
    rw [flushBuff]
    by_cases hzero : net.writePos = 0
    · rw [if_neg (by simpa using hzero)]
      exact ⟨net, [], rfl, .refl hready, hzero, rfl⟩
    have hlen : net.pending.length = net.writePos := length_fetch _ _ _
    have hne : net.pending ≠ [] := fun hnil => hzero (by rw [← hlen, hnil]; rfl)
    obtain ⟨net₁, hwrite, hsends⟩ := netRealWrite_eq z net net.pending
    have hemits := @Sends.emits _ _ _ _ [] hsends hready hne (fun hc => hlen ▸ hready.block hc) (append_nil _).symm
    rw [if_pos hzero]
    exact ⟨_, _, by rw [← Net.pending, hwrite, ok_bind], hemits, rfl, by rw [hsends.same]⟩
  rw [netFlush, hflush, ok_bind]
  by_cases hc : net.compress = true
  · rw [if_pos (hemits.compress.trans hc)]
    exact ⟨_, gs, rfl, ⟨hemits.bytes, hemits.nr, hemits.data, hemits.nonempty, hemits.block,
      ⟨hemits.ready.fits, hemits.ready.block, hemits.ready.alloc⟩, hemits.compress⟩, hpos, (if_pos hc).symm⟩
  rw [if_neg (hemits.compress.symm ▸ hc)]
  exact ⟨net₁, gs, rfl, hemits, hpos, hnr.trans (if_neg hc).symm⟩

/-! ### Packets -/

theorem emits_header (hready : Ready net) (len : Nat) (first : List UInt8) :
    ∃ net' gs, netWriteBuff z (frameHeader net len).2 ((frameHeader net len).1 ++ first) = .ok net' ∧
      Emits z net net' (int3store len ++ [nrByte net.pktNr] ++ first) gs ∧ net'.pktNr = net.pktNr + 1 := by
  have hready' : Ready (frameHeader net len).2 := ⟨hready.fits, hready.block, hready.alloc⟩
  obtain ⟨net', gs, hwrite, hemits, hnr⟩ := @emits_writeBuff z _ hready' ((frameHeader net len).1 ++ first)
  exact ⟨net', gs, hwrite, ⟨hemits.bytes, hemits.nr, hemits.data, hemits.nonempty, hemits.block, hemits.ready, hemits.compress⟩, hnr⟩

variable (nr : UInt32)

theorem fullFrames_zero (packet : List UInt8) : fullFrames 0 nr packet = frame nr packet := rfl

theorem fullFrames_succ (k : Nat) (nr : UInt32) (packet : List UInt8) :
    fullFrames (k + 1) nr packet = frame nr (packet.take maxPacketLength) ++ fullFrames k (nr + 1) (packet.drop maxPacketLength) := rfl

theorem maxPacketLength_pos : 0 < maxPacketLength := by decide

theorem fullCount_eq_zero (h : packet.length < maxPacketLength) : fullCount packet = 0 := Nat.div_eq_of_lt h

theorem fullCount_eq_succ (h : maxPacketLength ≤ packet.length) :
    fullCount packet = fullCount (packet.drop maxPacketLength) + 1 := by
  rw [fullCount, fullCount, length_drop, Nat.div_eq_sub_div maxPacketLength_pos h]

theorem frames_of_lt (h : packet.length < maxPacketLength) : frames nr packet = frame nr packet := by
  rw [frames, fullCount_eq_zero h, fullFrames_zero]

theorem frames_of_le (h : maxPacketLength ≤ packet.length) :
    frames nr packet = frame nr (packet.take maxPacketLength) ++ frames (nr + 1) (packet.drop maxPacketLength) := by
  rw [frames, fullCount_eq_succ h, fullFrames_succ, frames]

def nextNr (packet : List UInt8) : UInt32 := nr + UInt32.ofNat (fullCount packet + 1)

theorem nextNr_of_lt (h : packet.length < maxPacketLength) : nextNr nr packet = nr + 1 := by
  rw [nextNr, fullCount_eq_zero h]
  rfl

theorem nextNr_of_le (h : maxPacketLength ≤ packet.length) :
    nextNr nr packet = nextNr (nr + 1) (packet.drop maxPacketLength) := by
  rw [nextNr, nextNr, fullCount_eq_succ h, UInt32.add_assoc, UInt32.ofNat_add _ 1, UInt32.add_comm _ (UInt32.ofNat 1)]
  rfl

theorem emits_writeFrames {fuel : Nat} (hready : Ready net) (hfuel : packet.length < fuel) :
    ∃ net' gs, writeFrames z fuel net packet = .ok net' ∧ Emits z net net' (frames net.pktNr packet) gs ∧
      net'.pktNr = nextNr net.pktNr packet := by
  induction fuel generalizing net packet with
  | zero => omega
  | succ fuel ih =>
    rw [writeFrames]
    by_cases hlong : packet.length ≥ maxPacketLength
    · have htake := length_take_of_le hlong
      have hpos := maxPacketLength_pos
      obtain ⟨net₁, gs₁, hwrite₁, hemits₁, hnr₁⟩ := @emits_header z net hready maxPacketLength []
      obtain ⟨net₂, gs₂, hwrite₂, hemits₂, hnr₂⟩ := @emits_writeBuff z net₁ hemits₁.ready (packet.take maxPacketLength)
      obtain ⟨net', gs, hframes, hemits, hnr⟩ := @ih net₂ (packet.drop maxPacketLength) hemits₂.ready (by rw [length_drop]; omega)
      rw [append_nil] at hwrite₁ hemits₁
      rw [hnr₂, hnr₁] at hnr hemits
      refine ⟨net', gs₁ ++ gs₂ ++ gs, ?_, ?_, hnr.trans (nextNr_of_le _ hlong).symm⟩
      · rw [if_pos hlong]
        dsimp only
        rw [hwrite₁, ok_bind, hwrite₂, ok_bind]
        exact hframes
      rw [frames_of_le _ hlong, frame, htake]
      exact (hemits₁.trans hemits₂).trans hemits
    have hshort := Nat.lt_of_not_le hlong
    obtain ⟨net₁, gs₁, hwrite₁, hemits₁, hnr₁⟩ := @emits_header z net hready packet.length []
    obtain ⟨net₂, gs₂, hwrite₂, hemits₂, hnr₂⟩ := @emits_writeBuff z net₁ hemits₁.ready packet
    rw [append_nil] at hwrite₁ hemits₁
    refine ⟨net₂, gs₁ ++ gs₂, ?_, ?_, ?_⟩
    · rw [if_neg hlong]
      dsimp only
      rw [hwrite₁, ok_bind]
      exact hwrite₂
    · rw [frames_of_lt _ hshort, frame]
      exact hemits₁.trans hemits₂
    rw [hnr₂, hnr₁, nextNr_of_lt _ hshort]

theorem emits_myNetWrite (hready : Ready net) (packet : List UInt8) :
    ∃ net' gs, myNetWrite z net packet = .ok net' ∧ Emits z net net' (frames net.pktNr packet) gs ∧
      net'.pktNr = nextNr net.pktNr packet :=
  emits_writeFrames hready (Nat.lt_succ_self _)

/-! ### Commands -/

theorem bytesAt_eq {len : Nat} (h : len ≤ packet.length) : bytesAt packet len = .ok (packet.take len) := if_pos h

/-- The first `maxPacketLength` bytes of a packet whose start comes from two other places. -/
theorem take_drop_append {start packet : List UInt8} {len n : Nat} (hlen : start.length + len = n) :
    (start ++ packet).take n = start ++ packet.take len ∧ (start ++ packet).drop n = packet.drop len := by
  subst hlen
  exact ⟨take_length_add_append _, drop_length_add_append _⟩

theorem emits_commandLoop {fuel len length : Nat} {first header packet : List UInt8} (hready : Ready net) (hfuel : length ≤ fuel)
    (hlen : (first ++ header).length + len = maxPacketLength) (hlength : length = (first ++ header ++ packet).length)
    (hlong : maxPacketLength ≤ length) :
    ∃ net' gs rest taken, commandLoop z fuel net first header packet len length = .ok (net', rest, rest.length) ∧
      rest.length < maxPacketLength ∧ Emits z net net' taken gs ∧
        frames net.pktNr (first ++ header ++ packet) = taken ++ frames net'.pktNr rest ∧
          nextNr net.pktNr (first ++ header ++ packet) = nextNr net'.pktNr rest := by
  induction fuel generalizing net first header packet len length with
  | zero =>
    have hpos := maxPacketLength_pos
    omega
  | succ fuel ih =>
    have hpos := maxPacketLength_pos
    have hpacket : len ≤ packet.length := by
      rw [length_append] at hlength
      omega
    obtain ⟨htake, hdrop⟩ := @take_drop_append (first ++ header) packet len maxPacketLength hlen
    obtain ⟨net₁, gs₁, hwrite₁, hemits₁, hnr₁⟩ := @emits_header z net hready maxPacketLength first
    obtain ⟨net₂, gs₂, hwrite₂, hemits₂, hnr₂⟩ := @emits_writeBuff z net₁ hemits₁.ready header
    obtain ⟨net₃, gs₃, hwrite₃, hemits₃, hnr₃⟩ := @emits_writeBuff z net₂ hemits₂.ready (packet.take len)
    have hemits := (hemits₁.trans hemits₂).trans hemits₃
    have hnr : net₃.pktNr = net.pktNr + 1 := by rw [hnr₃, hnr₂, hnr₁]
    have hframe : int3store maxPacketLength ++ [nrByte net.pktNr] ++ first ++ header ++ packet.take len =
        frame net.pktNr ((first ++ header ++ packet).take maxPacketLength) := by
      rw [frame, length_take_of_le (hlength ▸ hlong), htake]
      simp only [append_assoc]
    rw [hframe] at hemits
    rw [frames_of_le _ (hlength ▸ hlong), nextNr_of_le _ (hlength ▸ hlong), hdrop, ← hnr, commandLoop]
    dsimp only
    rw [hwrite₁, ok_bind, hwrite₂, ok_bind, bytesAt_eq hpacket, ok_bind, hwrite₃, ok_bind]
    have hrest : length - maxPacketLength = (packet.drop len).length := by
      rw [length_append] at hlength
      rw [length_drop]
      omega
    by_cases hmore : length - maxPacketLength ≥ maxPacketLength
    · obtain ⟨net', gs, rest, taken, hloop, hlt, hemits', hframes, hnext⟩ :=
        @ih net₃ maxPacketLength (length - maxPacketLength) [] [] (packet.drop len) hemits.ready (by omega) (by simp)
          (by simpa using hrest) hmore
      rw [if_pos hmore]
      exact ⟨net', _, rest, _, hloop, hlt, hemits.trans hemits',
        (congrArg (_ ++ ·) hframes).trans (append_assoc _ _ _).symm, hnext⟩
    rw [if_neg hmore, hrest]
    exact ⟨net₃, _, _, _, rfl, by omega, hemits, rfl, rfl⟩

theorem emits_commandEnd {length : Nat} {first header packet : List UInt8} (hready : Ready net)
    (hlength : length = (first ++ header ++ packet).length) (hshort : length < maxPacketLength) :
    ∃ net' gs, commandEnd z net first header packet packet.length length = .ok net' ∧
      Emits z net net' (frames net.pktNr (first ++ header ++ packet)) gs ∧ net'.writePos = 0 ∧
        net'.pktNr = if net.compress then net'.compressPktNr else nextNr net.pktNr (first ++ header ++ packet) := by
  obtain ⟨net₁, gs₁, hwrite₁, hemits₁, hnr₁⟩ := @emits_header z net hready length first
  obtain ⟨net₂, gs₂, hwrite₂, hemits₂, hnr₂⟩ : ∃ net₂ gs₂, writeHeader z net₁ header = .ok net₂ ∧ Emits z net₁ net₂ header gs₂ ∧
      net₂.pktNr = net₁.pktNr := by
    rw [writeHeader]
    by_cases hnil : header = []
    · subst hnil
      exact ⟨net₁, [], rfl, .refl hemits₁.ready, rfl⟩
    rw [if_pos hnil]
    exact emits_writeBuff hemits₁.ready header
  obtain ⟨net₃, gs₃, hwrite₃, hemits₃, hnr₃⟩ := @emits_writeBuff z net₂ hemits₂.ready packet
  obtain ⟨net', gs₄, hflush, hemits₄, hempty, hnr₄⟩ := @emits_flush z net₃ hemits₃.ready
  have hemits := ((hemits₁.trans hemits₂).trans hemits₃).trans hemits₄
  have hframe : int3store length ++ [nrByte net.pktNr] ++ first ++ header ++ packet ++ [] =
      frames net.pktNr (first ++ header ++ packet) := by
    rw [frames_of_lt _ (hlength ▸ hshort), frame, ← hlength]
    simp only [append_assoc, append_nil]
  rw [hframe] at hemits
  refine ⟨net', _, ?_, hemits, hempty, ?_⟩
  · rw [commandEnd]
    dsimp only
    rw [hwrite₁, ok_bind, hwrite₂, ok_bind, bytesAt_eq le_rfl, take_length, ok_bind, hwrite₃, ok_bind]
    exact hflush
  rw [hnr₄, hemits₃.compress, hemits₂.compress, hemits₁.compress, hnr₃, hnr₂, hnr₁, nextNr_of_lt _ (hlength ▸ hshort)]

/-- `net_write_command` passes the frames of its packet, if the header fits into the first one. -/
theorem emits_netWriteCommand {command : UInt8} {header packet : List UInt8} (hready : Ready net)
    (hfits : packet.length + 1 + header.length < 2 ^ 64) (hheader : header.length < maxPacketLength) :
    ∃ net' gs, netWriteCommand z net command header packet = .ok net' ∧
      Emits z net net' (frames net.pktNr (command :: (header ++ packet))) gs ∧ net'.writePos = 0 ∧
        net'.pktNr = if net.compress then net'.compressPktNr else nextNr net.pktNr (command :: (header ++ packet)) := by
  have hlength : packet.length + 1 + header.length = ([command] ++ header ++ packet).length := by
    simp only [length_append, length_singleton]
    omega
  have hlen : (maxPacketLength + 2 ^ 64 - 1 - header.length) % 2 ^ 64 = maxPacketLength - 1 - header.length := by
    have hmax : maxPacketLength < 2 ^ 64 := by decide
    omega
  simp only [netWriteCommand, Nat.mod_eq_of_lt hfits]
  by_cases hlong : packet.length + 1 + header.length ≥ maxPacketLength
  · obtain ⟨net₁, gs₁, rest, taken, hloop, hlt, hemits₁, hframes, hnext⟩ :=
      @emits_commandLoop z net _ (maxPacketLength - 1 - header.length) _ [command] header packet hready le_rfl
        (by simp only [length_append, length_singleton]; omega) hlength hlong
    obtain ⟨net', gs, hend, hemits, hempty, hnr⟩ := @emits_commandEnd z net₁ rest.length [] [] rest hemits₁.ready rfl hlt
    refine ⟨net', _, ?_, (hframes : frames net.pktNr (command :: (header ++ packet)) = _) ▸ hemits₁.trans hemits, hempty, ?_⟩
    · rw [if_pos hlong, hlen, hloop, ok_bind]
      exact hend
    rw [hnr, hemits₁.compress]
    exact congrArg (fun nr => if net.compress then net'.compressPktNr else nr) hnext.symm
  rw [if_neg hlong]
  exact emits_commandEnd hready hlength (Nat.lt_of_not_le hlong)

theorem netWriteCommand_fault {command : UInt8} {header packet : List UInt8} (hready : Ready net)
    (hfits : packet.length + 1 + header.length < 2 ^ 64) (hheader : maxPacketLength ≤ header.length) :
    netWriteCommand z net command header packet = .error .fault := by
  obtain ⟨net₁, gs₁, hwrite₁, hemits₁, hnr₁⟩ := @emits_header z net hready maxPacketLength [command]
  obtain ⟨net₂, gs₂, hwrite₂, hemits₂, hnr₂⟩ := @emits_writeBuff z net₁ hemits₁.ready header
  have hbytes : bytesAt packet ((maxPacketLength + 2 ^ 64 - 1 - header.length) % 2 ^ 64) = .error .fault := if_neg (by omega)
  simp only [netWriteCommand, Nat.mod_eq_of_lt hfits]
  rw [if_pos (by omega), add_right_comm, commandLoop]
  dsimp only
  rw [hwrite₁, ok_bind, hwrite₂, ok_bind, hbytes]
  rfl

/-! ### Sequences -/

def Send.packets : Send → List (List UInt8)
  | .write packet => [packet]
  | .command cmd header packet => [cmd :: (header ++ packet)]
  | .flush => []

def Send.Sized : Send → Prop
  | .write packet => packet.length < 2 ^ 64
  | .command _ header packet => packet.length + 1 + header.length < 2 ^ 64
  | .flush => True

def Send.Fits : Send → Prop
  | .write _ => True
  | .command _ header _ => header.length < maxPacketLength
  | .flush => True

def stream : UInt32 → List (List UInt8) → List UInt8
  | _, [] => []
  | nr, packet :: packets => frames nr packet ++ stream (nextNr nr packet) packets

def lastNr : UInt32 → List (List UInt8) → UInt32
  | nr, [] => nr
  | nr, packet :: packets => lastNr (nextNr nr packet) packets

def numbered (nrs : List UInt32) (packets : List (List UInt8)) : List UInt8 := (List.zipWith frames nrs packets).flatten

theorem stream_append (ps qs : List (List UInt8)) : stream nr (ps ++ qs) = stream nr ps ++ stream (lastNr nr ps) qs := by
  induction ps generalizing nr with
  | nil => rfl
  | cons p ps ih => rw [cons_append, stream, stream, ih, lastNr, append_assoc]

theorem lastNr_append (ps qs : List (List UInt8)) : lastNr nr (ps ++ qs) = lastNr (lastNr nr ps) qs := by
  induction ps generalizing nr with
  | nil => rfl
  | cons p ps ih => exact ih _

theorem emits_send {s : Send} (hready : Ready net) (hsized : s.Sized) (hfits : s.Fits) :
    ∃ net' gs nrs, send z net s = .ok net' ∧ nrs.length = s.packets.length ∧ Emits z net net' (numbered nrs s.packets) gs ∧
      (net.compress = false → stream net.pktNr s.packets = numbered nrs s.packets ∧ net'.pktNr = lastNr net.pktNr s.packets) := by
  cases s with
  | write packet =>
    obtain ⟨net', gs, hwrite, hemits, hnr⟩ := @emits_myNetWrite z net hready packet
    refine ⟨net', gs, [net.pktNr], hwrite, rfl, ?_, fun _ => ⟨?_, hnr⟩⟩
    · simpa [numbered, Send.packets] using hemits
    · simp [numbered, Send.packets, stream]
  | command command header packet =>
    obtain ⟨net', gs, hwrite, hemits, -, hnr⟩ := @emits_netWriteCommand z net command header packet hready hsized hfits
    refine ⟨net', gs, [net.pktNr], hwrite, rfl, ?_, fun hc => ⟨?_, ?_⟩⟩
    · simpa [numbered, Send.packets] using hemits
    · simp [numbered, Send.packets, stream]
    rw [hnr, hc]
    rfl
  | flush =>
    obtain ⟨net', gs, hflush, hemits, -, hnr⟩ := @emits_flush z net hready
    refine ⟨net', gs, [], hflush, rfl, hemits, fun hc => ⟨rfl, ?_⟩⟩
    rw [hnr, hc]
    rfl

theorem emits_sends {ss : List Send} (hready : Ready net) (hsized : ∀ s ∈ ss, s.Sized) (hfits : ∀ s ∈ ss, s.Fits) :
    ∃ net' gs nrs, sends z net ss = .ok net' ∧ nrs.length = (ss.flatMap Send.packets).length ∧
      Emits z net net' (numbered nrs (ss.flatMap Send.packets)) gs ∧
        (net.compress = false → stream net.pktNr (ss.flatMap Send.packets) = numbered nrs (ss.flatMap Send.packets) ∧
          net'.pktNr = lastNr net.pktNr (ss.flatMap Send.packets)) := by
  induction ss generalizing net with
  | nil => exact ⟨net, [], [], rfl, rfl, .refl hready, fun _ => ⟨rfl, rfl⟩⟩
  | cons s ss ih =>
    obtain ⟨net₁, gs₁, nrs₁, hsend, hlen₁, hemits₁, hplain₁⟩ :=
      @emits_send z net s hready (hsized s mem_cons_self) (hfits s mem_cons_self)
    obtain ⟨net', gs, nrs, hsends, hlen, hemits, hplain⟩ := @ih net₁ hemits₁.ready
      (fun t ht => hsized t (mem_cons_of_mem s ht)) (fun t ht => hfits t (mem_cons_of_mem s ht))
    have hnumbered : numbered (nrs₁ ++ nrs) (s.packets ++ ss.flatMap Send.packets) =
        numbered nrs₁ s.packets ++ numbered nrs (ss.flatMap Send.packets) := by
      rw [numbered, zipWith_append hlen₁, flatten_append]
      rfl
    refine ⟨net', gs₁ ++ gs, nrs₁ ++ nrs, ?_, ?_, ?_, fun hc => ?_⟩
    · rw [sends, hsend]
      exact hsends
    · simp only [flatMap_cons, length_append, hlen₁, hlen]
    · rw [flatMap_cons, hnumbered]
      exact hemits₁.trans hemits
    obtain ⟨hstream₁, hnr₁⟩ := hplain₁ hc
    obtain ⟨hstream, hnr⟩ := hplain (hemits₁.compress.trans hc)
    rw [flatMap_cons, hnumbered, stream_append, lastNr_append, ← hstream₁, ← hstream, ← hnr₁]
    exact ⟨rfl, hnr⟩

theorem sends_append (net : Net) (ss ts : List Send) : sends z net (ss ++ ts) = sends z net ss >>= (sends z · ts) := by
  induction ss generalizing net with
  | nil => rfl
  | cons s ss ih =>
    rw [cons_append, sends, sends]
    cases send z net s with
    | error e => rfl
    | ok net₁ => exact ih net₁

theorem sends_fault {ss : List Send} (hready : Ready net) (hsized : ∀ s ∈ ss, s.Sized) (hfits : ¬ ∀ s ∈ ss, s.Fits) :
    sends z net ss = .error .fault := by
  induction ss generalizing net with
  | nil => exact absurd (fun s hs => absurd hs not_mem_nil) hfits
  | cons s ss ih =>
    rw [sends]
    by_cases hs : s.Fits
    · obtain ⟨net₁, gs, nrs, hsend, -, hemits, -⟩ := @emits_send z net s hready (hsized s mem_cons_self) hs
      rw [hsend, ok_bind]
      apply ih hemits.ready (fun t ht => hsized t (mem_cons_of_mem s ht))
      intro hrest
      exact hfits fun t ht => (mem_cons.1 ht).elim (fun heq => heq ▸ hs) (hrest t)
    cases s with
    | write packet => exact absurd trivial hs
    | command cmd header packet =>
      have hfault := @netWriteCommand_fault z net cmd header packet hready (hsized _ mem_cons_self) (Nat.le_of_not_lt hs)
      rw [send, hfault]
      rfl
    | flush => exact absurd trivial hs

end Mysql51.Protocol
