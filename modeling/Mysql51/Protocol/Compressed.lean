import Mysql51.Protocol.Blocks

/-!
# Packets of a compressed connection

`my_net_read` puts a zero behind the packet it returns and keeps the byte that was there for the next call, which puts it back
where the next packet starts. Behind a packet whose last frame is empty these are two places, and the next packet loses the low
byte of its length.
-/

namespace Mysql51.Protocol

open Machine Memory List

variable {z : Zlib} {net net' : Net} {c c' : Cursor}

/-- The next call of `my_net_read` starts with the bytes `u`. -/
structure Left (net : Net) (u : List UInt8) : Prop where
  remain : net.remainInBuf = u.length
  fits : u.length ≤ net.bufLength
  room : net.bufLength ≤ net.maxPacket
  alloc : net.maxPacket + netHeaderSize + compHeaderSize ≤ net.alloc
  compress : net.compress = true
  data : u ≠ [] → Memory.fetch (store net.buff (net.bufLength - u.length) [net.saveChar]) (net.bufLength - u.length) u.length = u

theorem openBuffer_eq {u : List UInt8} (h : Left net u) :
    ∃ net' c, openBuffer net = .ok (net', c) ∧ Holds net' c [] u ∧ c.multiBytePacket = 0 ∧ net' = { net with buff := net'.buff } := by
  have hfits := h.fits
  have hroom := h.room
  have halloc := h.alloc
  rw [openBuffer]
  by_cases hnil : u = []
  · subst hnil
    rw [if_neg (by simpa using h.remain)]
    exact ⟨net, _, rfl, ⟨rfl, rfl, rfl, Nat.zero_le _, halloc, h.compress⟩, rfl, rfl⟩
  have hpos := length_pos_iff.2 hnil
  have hstart : net.bufLength - net.remainInBuf = net.bufLength - u.length := by rw [h.remain]
  have hcopy : net.copyTo (net.bufLength - net.remainInBuf) [net.saveChar] =
      .ok { net with buff := store net.buff (net.bufLength - u.length) [net.saveChar] } := by
    rw [hstart, Net.copyTo, if_pos (by rw [length_singleton]; omega)]
  rw [if_pos (by rw [h.remain]; omega)]
  dsimp only
  rw [hcopy, ok_bind]
  refine ⟨_, _, rfl, ⟨?_, rfl, ?_, hroom, halloc, h.compress⟩, rfl, rfl⟩
  · rw [hstart]
    exact h.data hnil
  show net.bufLength = net.bufLength - net.remainInBuf + u.length
  omega

def zeroHead : List UInt8 → List UInt8
  | [] => []
  | _ :: bs => 0 :: bs

theorem length_zeroHead (bs : List UInt8) : (zeroHead bs).length = bs.length := by cases bs <;> rfl

variable {packet v rest : List UInt8} {nr : UInt32} {gs : List (List UInt8)} {fuel : Nat}

theorem closeBuffer_eq {header tail : List UInt8} (h : Holds net c (header ++ packet ++ tail) v)
    (hheader : header.length = netHeaderSize) (hmulti : c.multiBytePacket = tail.length)
    (htail : if EndsEmpty packet then ∃ nr, tail = frame nr [] else tail = []) :
    ∃ net', closeBuffer net c = .ok (packet.length, net') ∧ net'.fetch net'.readPos packet.length = packet ∧
      Left net' (if EndsEmpty packet then zeroHead v else v) ∧ net'.vio = net.vio ∧ net'.pktNr = net.pktNr ∧
        net'.maxPacketSize = net.maxPacketSize := by
  have hstart := h.start
  have hlength := h.length
  have hroom := h.room
  have halloc := h.alloc
  rw [length_append, length_append, hheader] at hstart
  have hlen : c.startOfPacket - c.firstPacketOffset - netHeaderSize - c.multiBytePacket = packet.length := by omega
  -- the place of the zero
  obtain ⟨pos, hpos⟩ : ∃ pos, pos = c.firstPacketOffset + netHeaderSize + packet.length := ⟨_, rfl⟩
  have hcopy : ({ net with
        readPos := c.firstPacketOffset + netHeaderSize
        bufLength := c.bufLength
        remainInBuf := c.bufLength - c.startOfPacket
        saveChar := net.buff pos } : Net).copyTo pos [0] = .ok { net with
      readPos := c.firstPacketOffset + netHeaderSize
      bufLength := c.bufLength
      remainInBuf := c.bufLength - c.startOfPacket
      saveChar := net.buff pos
      buff := store net.buff pos [0] } := by
    rw [Net.copyTo, if_pos]
    show pos + 1 ≤ net.alloc
    have hsize : netHeaderSize = 4 := rfl
    omega
  have hpacket :=
    hheader ▸ fetch_part h.passed
  rw [closeBuffer, hlen, ← hpos, hcopy]
  refine ⟨_, rfl, ?_, ⟨?_, ?_, hroom, halloc, h.compress, ?_⟩, rfl, rfl, rfl⟩
  · exact (fetch_store_before [0] hpos.ge).trans hpacket
  · split_ifs
    · rw [length_zeroHead, hlength, Nat.add_sub_cancel_left]
    · rw [hlength, Nat.add_sub_cancel_left]
  · show _ ≤ c.bufLength
    split_ifs
    · rw [length_zeroHead]
      omega
    omega
  intro hne
  show Memory.fetch (store (store net.buff pos [0]) (c.bufLength - _) [net.buff pos]) (c.bufLength - _) _ = _
  have hunread := h.unread
  have hback : c.bufLength - v.length = c.startOfPacket := by rw [hlength, Nat.add_sub_cancel_right]
  by_cases hends : EndsEmpty packet
  · -- the zero went to the header of the empty frame, and its first byte goes to the start of the next packet
    rw [if_pos hends] at hne htail ⊢
    obtain ⟨nr, rfl⟩ := htail
    have hframe := length_frame nr []
    have hsave : net.buff pos = 0 := by
      have hbyte := @fetch_part _ _ _ _ [] (by rw [append_nil]; exact h.passed)
      rw [length_append, hheader, ← add_assoc, ← hpos, hframe] at hbyte
      exact (List.cons.inj hbyte).1
    rw [length_zeroHead, hback, hsave]
    cases v with
    | nil => exact absurd rfl hne
    | cons b t =>
      have hbehind : Memory.fetch net.buff (c.startOfPacket + 1) t.length = t := (List.cons.inj hunread).2
      rw [zeroHead, length_cons, add_comm, fetch_add]
      refine congrArg₂ (· ++ ·) (@fetch_store _ c.startOfPacket [0]) ?_
      rw [fetch_store_after (by rw [length_singleton]), fetch_store_after (by rw [length_singleton]; omega)]
      exact hbehind
  rw [if_neg hends] at hne htail ⊢
  subst htail
  rw [length_nil, add_zero, ← add_assoc, ← hpos] at hstart
  rw [hback, hstart, store_restore, ← hstart]
  exact hunread

/-- A call of `my_net_read` that starts with the right bytes returns the next packet. -/
theorem readPacket_eq (hz : z.Lawful) (hleft : Left net v) (hin : Incoming z net gs)
    (hstream : v ++ gs.flatten = frames nr packet ++ rest) :
    ∃ j net' v' gs', (∀ fuel, readPacket z (fuel + j) net = .ok (packet, net')) ∧
      Left net' (if EndsEmpty packet then zeroHead v' else v') ∧ Incoming z net' gs' ∧ v' ++ gs'.flatten = rest ∧
        ∀ n, Boundary v gs ((frames nr packet).length + n) ↔ Boundary v' gs' n := by
  obtain ⟨net₁, c₁, hopen, hholds₁, hmulti₁, hsame₁⟩ := openBuffer_eq hleft
  obtain ⟨j, net₂, c₂, v', gs', header, tail, hloop, hheader, hholds₂, hin₂, hrest, hmulti₂, htail, hboundary⟩ :=
    packetLoop_eq hz hholds₁ (hin.of_buff hsame₁) hmulti₁ hstream
  obtain ⟨net₃, hclose, hpacket, hleft₃, hvio, hnr, hsize⟩ := closeBuffer_eq hholds₂ hheader hmulti₂ htail
  refine ⟨j, net₃, v', gs', fun fuel => ?_, hleft₃, ⟨?_, hin₂.nonempty, hin₂.block, fun g hg => ?_⟩, hrest, hboundary⟩
  · rw [readPacket, myNetRead, if_pos hleft.compress, readCompressed, hopen, ok_bind]
    dsimp only
    rw [hloop, ok_bind]
    rw [hclose, ok_bind]
    rw [hpacket]
  · rw [hvio, hnr]
    exact hin₂.bytes
  rw [hsize]
  exact hin₂.small g hg

/-! ### A byte lost -/

/-- The packet that is read has the length in the first header, if that is not the length of a full frame. -/
theorem packetLoop_length {len : Nat} (hz : z.Lawful) (h : Holds net c [] v) (hin : Incoming z net gs)
    (hmulti : c.multiBytePacket = 0) (hstream : v ++ gs.flatten = int3store len ++ rest) (hlen : len < maxPacketLength)
    (hloop : packetLoop z fuel net c = .ok (net', c')) :
    c'.startOfPacket - c'.firstPacketOffset - netHeaderSize - c'.multiBytePacket = len := by
  induction fuel generalizing net c v gs with
  | zero => cases hloop
  | succ fuel ih =>
    have hheader : netHeaderSize = 4 := rfl
    have hstart := h.start
    rw [length_nil, add_zero] at hstart
    have hcount : v.length ≥ netHeaderSize → net.uint3korr c.startOfPacket = len := by
      intro hv
      have htake := congrArg (List.take 3) hstream
      rw [take_append_of_le_length (by omega), take_left' (length_int3store len)] at htake
      rw [h.uint3korr (by omega), htake, ofLeBytes_int3store hlen.le]
    rw [packetLoop, h.left] at hloop
    by_cases hzero : v.length ≥ netHeaderSize ∧ net.uint3korr c.startOfPacket = 0
    · rw [if_pos hzero] at hloop
      cases hloop
      have hlen' := (hcount hzero.1).symm.trans hzero.2
      show c.startOfPacket + netHeaderSize - c.firstPacketOffset - netHeaderSize - c.multiBytePacket = len
      omega
    rw [if_neg hzero] at hloop
    by_cases hpass : v.length ≥ netHeaderSize ∧ net.uint3korr c.startOfPacket + netHeaderSize ≤ v.length
    · have hpassed : passFrame net c len = .ok (net, { c with startOfPacket := c.startOfPacket + len + netHeaderSize }) :=
        if_neg (by simpa using hmulti)
      rw [if_pos hpass, hcount hpass.1] at hloop
      dsimp only at hloop
      rw [hpassed, ok_bind] at hloop
      dsimp only at hloop
      rw [if_pos hlen.ne] at hloop
      cases hloop
      show c.startOfPacket + len + netHeaderSize - c.firstPacketOffset - netHeaderSize - 0 = len
      omega
    rw [if_neg hpass] at hloop
    cases gs with
    | nil =>
      rw [readBlock_nil h hin] at hloop
      cases hloop
    | cons g gs =>
      obtain ⟨net₁, c₁, hread, hholds₁, hin₁, -, hmulti₁⟩ := readBlock_eq hz h hin
      rw [hread, ok_bind] at hloop
      rw [flatten_cons, ← append_assoc] at hstream
      exact ih hholds₁ hin₁ (hmulti₁.trans hmulti) hstream hloop

def firstLength (packet : List UInt8) : Nat := min packet.length maxPacketLength

theorem frames_header (nr : UInt32) (packet : List UInt8) : ∃ rest, frames nr packet = int3store (firstLength packet) ++ rest := by
  by_cases hlong : maxPacketLength ≤ packet.length
  · rw [frames_of_le _ hlong, frame, length_take, Nat.min_comm, firstLength, append_assoc, append_assoc]
    exact ⟨_, rfl⟩
  rw [frames_of_lt _ (Nat.lt_of_not_le hlong), frame, firstLength, min_eq_left (Nat.le_of_not_le hlong), append_assoc]
  exact ⟨_, rfl⟩

theorem zeroHead_append {w : List UInt8} (hv : v ≠ []) : zeroHead v ++ w = zeroHead (v ++ w) := by
  cases v with
  | nil => exact absurd rfl hv
  | cons b t => rfl

theorem zeroHead_int3store (n : Nat) (rest : List UInt8) : zeroHead (int3store n ++ rest) = int3store (n / 256 * 256) ++ rest := by
  have hzero : UInt8.ofNat (n / 256 * 256) = 0 := by
    apply UInt8.toNat_inj.1
    rw [UInt8.toNat_ofNat', Nat.mul_mod_left]
    rfl
  simp only [int3store, leBytes, cons_append, nil_append, zeroHead, hzero, Nat.mul_div_cancel _ (by decide : 0 < 256)]

/-- A call of `my_net_read` that starts with a lost byte does not return the next packet, if the byte was not zero. -/
theorem readPacket_ne (hz : z.Lawful) (hleft : Left net (zeroHead v)) (hv : v ≠ []) (hin : Incoming z net gs)
    (hstream : v ++ gs.flatten = frames nr packet ++ rest) (hbyte : firstLength packet % 256 ≠ 0) :
    readPacket z fuel net ≠ .ok (packet, net') := by
  intro hread
  rw [readPacket, myNetRead, if_pos hleft.compress, readCompressed] at hread
  obtain ⟨net₁, c₁, hopen, hholds₁, hmulti₁, hsame₁⟩ := openBuffer_eq hleft
  rw [hopen, ok_bind] at hread
  obtain ⟨⟨len, net₃⟩, hclose, hpacket⟩ := bind_eq_ok hread
  obtain ⟨⟨net₂, c₂⟩, hloop, hclose⟩ := bind_eq_ok hclose
  have hmax : firstLength packet ≤ maxPacketLength := Nat.min_le_right _ _
  have hmin : firstLength packet ≤ packet.length := Nat.min_le_left _ _
  obtain ⟨rest', hheader⟩ := frames_header nr packet
  have hstream' : zeroHead v ++ gs.flatten = int3store (firstLength packet / 256 * 256) ++ (rest' ++ rest) := by
    rw [zeroHead_append hv, hstream, hheader, append_assoc, zeroHead_int3store]
  have hlength := packetLoop_length hz hholds₁ (hin.of_buff hsame₁) hmulti₁ hstream' (by omega) hloop
  obtain ⟨net₄, -, hresult⟩ := bind_eq_ok hclose
  have hlen : packet.length = len := by
    cases hpacket
    exact length_fetch _ _ _
  have hlen' : len = firstLength packet / 256 * 256 := by
    cases hresult
    exact hlength
  omega

/-! ### Fuel -/

theorem packetLoop_mono {r : Net × Cursor} (h : packetLoop z fuel net c = .ok r) : packetLoop z (fuel + 1) net c = .ok r := by
  induction fuel generalizing net c with
  | zero => cases h
  | succ fuel ih =>
    rw [packetLoop] at h ⊢
    split_ifs at h ⊢ with hzero hpass
    · exact h
    · obtain ⟨⟨net₁, c₁⟩, hframe, hrest⟩ := bind_eq_ok h
      dsimp only
      rw [hframe, ok_bind]
      dsimp only at hrest ⊢
      split_ifs at hrest ⊢ with hlast
      · exact hrest
      obtain ⟨⟨net₂, c₂⟩, hmove, hloop⟩ := bind_eq_ok hrest
      rw [hmove, ok_bind]
      exact ih hloop
    obtain ⟨⟨net₁, c₁⟩, hblock, hloop⟩ := bind_eq_ok h
    rw [hblock, ok_bind]
    exact ih hloop

theorem readPacket_mono {r : List UInt8 × Net} (h : readPacket z fuel net = .ok r) : readPacket z (fuel + 1) net = .ok r := by
  rw [readPacket, myNetRead] at h ⊢
  split_ifs at h ⊢ with hc
  · obtain ⟨⟨len, net₁⟩, hread, hresult⟩ := bind_eq_ok h
    obtain ⟨⟨net₂, c₂⟩, hopen, hread⟩ := bind_eq_ok hread
    obtain ⟨⟨net₃, c₃⟩, hloop, hclose⟩ := bind_eq_ok hread
    rw [readCompressed, hopen, ok_bind]
    dsimp only
    rw [packetLoop_mono hloop, ok_bind]
    dsimp only at hclose ⊢
    rw [hclose]
    exact hresult
  exact h

theorem readPacket_le {fuel' : Nat} {r : List UInt8 × Net} (hle : fuel ≤ fuel') (h : readPacket z fuel net = .ok r) :
    readPacket z fuel' net = .ok r := by
  induction hle with
  | refl => exact h
  | step _ ih => exact readPacket_mono ih

theorem readPackets_le {fuel' n : Nat} {r : List (List UInt8) × Net} (hle : fuel ≤ fuel') (h : readPackets z fuel n net = .ok r) :
    readPackets z fuel' n net = .ok r := by
  induction n generalizing net r with
  | zero => exact h
  | succ n ih =>
    rw [readPackets] at h ⊢
    obtain ⟨⟨packet, net₁⟩, hread, hrest⟩ := bind_eq_ok h
    obtain ⟨⟨packets, net₂⟩, hreads, hresult⟩ := bind_eq_ok hrest
    rw [readPacket_le hle hread, ok_bind]
    dsimp only at hreads hresult ⊢
    rw [ih hreads]
    exact hresult

/-! ### All packets -/

def framesLength (packet : List UInt8) : Nat := packet.length + netHeaderSize * (fullCount packet + 1)

theorem length_frames (nr : UInt32) (packet : List UInt8) : (frames nr packet).length = framesLength packet := by
  generalize hk : fullCount packet = k
  induction k generalizing nr packet with
  | zero =>
    rw [frames, hk, fullFrames_zero, length_frame, framesLength, hk, zero_add, mul_one]
  | succ k ih =>
    have hlong : maxPacketLength ≤ packet.length := by
      by_contra hshort
      rw [fullCount_eq_zero (Nat.lt_of_not_le hshort)] at hk
      omega
    have hrest := fullCount_eq_succ hlong
    rw [frames_of_le _ hlong, length_append, ih _ _ (by omega), length_frame, length_take_of_le hlong, framesLength,
      framesLength, length_drop, hrest, Nat.mul_add_one, Nat.mul_add_one, Nat.mul_add_one]
    omega

/-- Behind each packet that ends with an empty frame, and before one whose length has a low byte, a block ends. -/
def Restored (boundary : Nat → Prop) (packets : List (List UInt8)) : Prop :=
  ∀ i p q, packets[i]? = some p → packets[i + 1]? = some q → EndsEmpty p → firstLength q % 256 ≠ 0 →
    boundary ((packets.take (i + 1)).map framesLength).sum

theorem restored_cons {boundary boundary' : Nat → Prop} {p : List UInt8} {ps : List (List UInt8)}
    (hboundary : ∀ n, boundary (framesLength p + n) ↔ boundary' n) :
    Restored boundary (p :: ps) ↔ (∀ q, ps[0]? = some q → EndsEmpty p → firstLength q % 256 ≠ 0 → boundary' 0) ∧
      Restored boundary' ps := by
  constructor
  · intro h
    refine ⟨fun q hq hends hbyte => ?_, fun i p' q hp' hq hends hbyte => ?_⟩
    · have hzero := h 0 p q rfl hq hends hbyte
      rwa [take_succ_cons, take_zero, map_singleton, sum_singleton, ← add_zero (framesLength p), hboundary] at hzero
    have hsucc := h (i + 1) p' q hp' hq hends hbyte
    rwa [take_succ_cons, map_cons, sum_cons, hboundary] at hsucc
  rintro ⟨hfirst, hrest⟩ i p' q hp' hq hends hbyte
  rw [take_succ_cons, map_cons, sum_cons, hboundary]
  cases i with
  | zero =>
    cases hp'
    exact hfirst q hq hends hbyte
  | succ i => exact hrest i p' q hp' hq hends hbyte

theorem boundary_zero : Boundary v gs 0 ↔ v = [] := by
  constructor
  · rintro ⟨k, hk⟩
    exact length_eq_zero_iff.1 (by omega)
  rintro rfl
  exact ⟨0, rfl⟩

theorem zeroHead_eq {w : List UInt8} (hstream : v ++ w = frames nr packet ++ rest) (hbyte : firstLength packet % 256 = 0) :
    zeroHead v = v := by
  obtain ⟨rest', hheader⟩ := frames_header nr packet
  cases v with
  | nil => rfl
  | cons b t =>
    rw [hheader] at hstream
    have hb : b = UInt8.ofNat (firstLength packet) := (List.cons.inj hstream).1
    have hzero : UInt8.ofNat (firstLength packet) = 0 := by
      apply UInt8.toNat_inj.1
      rw [UInt8.toNat_ofNat', hbyte]
      rfl
    rw [zeroHead, hb, hzero]

/-- The calls of `my_net_read` return the packets exactly when no byte is lost that was not zero. -/
theorem readPackets_restored_iff {nrs : List UInt32} {packets : List (List UInt8)} {v : List UInt8} {gs : List (List UInt8)}
    (hz : z.Lawful) (hleft : Left net v) (hin : Incoming z net gs) (hnrs : nrs.length = packets.length)
    (hstream : v ++ gs.flatten = numbered nrs packets) :
    (∃ fuel net', readPackets z fuel packets.length net = .ok (packets, net')) ↔ Restored (Boundary v gs) packets := by
  induction packets generalizing net nrs v gs with
  | nil => exact iff_of_true ⟨0, net, rfl⟩ fun i p q hp => absurd hp (by simp)
  | cons p ps ih =>
    obtain ⟨nr, nrs, rfl⟩ := exists_cons_of_length_eq_add_one hnrs
    have hnumbered : numbered (nr :: nrs) (p :: ps) = frames nr p ++ numbered nrs ps := rfl
    rw [hnumbered] at hstream
    obtain ⟨j, net₁, v₁, gs₁, hread, hleft₁, hin₁, hstream₁, hboundary⟩ := readPacket_eq hz hleft hin hstream
    rw [length_frames] at hboundary
    rw [restored_cons hboundary, boundary_zero]
    have hreads : (∃ fuel net', readPackets z fuel (p :: ps).length net = .ok (p :: ps, net')) ↔
        ∃ fuel net', readPackets z fuel ps.length net₁ = .ok (ps, net') := by
      constructor
      · rintro ⟨fuel, net', h⟩
        have hmore := readPackets_le (Nat.le_add_right fuel j) h
        rw [length_cons, readPackets, hread fuel, ok_bind] at hmore
        obtain ⟨⟨packets, net₂⟩, hps, hresult⟩ := bind_eq_ok hmore
        cases hresult
        exact ⟨_, _, hps⟩
      rintro ⟨fuel, net', h⟩
      refine ⟨fuel + j, net', ?_⟩
      rw [length_cons, readPackets, hread fuel, ok_bind]
      dsimp only
      rw [readPackets_le (Nat.le_add_right fuel j) h]
      rfl
    rw [hreads]
    by_cases hlost : ∃ q, ps[0]? = some q ∧ EndsEmpty p ∧ firstLength q % 256 ≠ 0 ∧ v₁ ≠ []
    · obtain ⟨q, hq, hends, hbyte, hne⟩ := hlost
      refine iff_of_false ?_ fun h => hne (h.1 q hq hends hbyte)
      rintro ⟨fuel, net', h⟩
      cases ps with
      | nil => cases hq
      | cons q' ps =>
        cases hq
        obtain ⟨nr', nrs, rfl⟩ := exists_cons_of_length_eq_add_one (Nat.succ.inj hnrs)
        rw [if_pos hends] at hleft₁
        obtain ⟨⟨q', net₂⟩, hreadq, hrest⟩ := bind_eq_ok h
        obtain ⟨⟨packets, net₃⟩, -, hresult⟩ := bind_eq_ok hrest
        cases hresult
        exact readPacket_ne hz hleft₁ hne hin₁ hstream₁ hbyte hreadq
    have hkept : Left net₁ v₁ := by
      by_cases hends : EndsEmpty p
      · rw [if_pos hends] at hleft₁
        by_cases hnil : v₁ = []
        · rwa [hnil, zeroHead, ← hnil] at hleft₁
        cases ps with
        | nil =>
          rw [numbered, zipWith_nil_right, flatten_nil] at hstream₁
          exact absurd (append_eq_nil_iff.1 hstream₁).1 hnil
        | cons q ps =>
          obtain ⟨nr', nrs, rfl⟩ := exists_cons_of_length_eq_add_one (Nat.succ.inj hnrs)
          have hbyte : firstLength q % 256 = 0 := by
            by_contra hbyte
            exact hlost ⟨q, rfl, hends, hbyte, hnil⟩
          rwa [zeroHead_eq hstream₁ hbyte] at hleft₁
      rwa [if_neg hends] at hleft₁
    rw [ih hkept hin₁ (Nat.succ.inj hnrs) hstream₁]
    refine (and_iff_right fun q hq hends hbyte => ?_).symm
    by_contra hnil
    exact hlost ⟨q, hq, hends, hbyte, hnil⟩

theorem left_init (vio : Vio) (buff : Nat → UInt8) (maxPacket maxPacketSize : Nat) (nr : UInt32) :
    Left { myNetInit vio buff maxPacket maxPacketSize true with pktNr := nr } [] where
  remain := rfl
  fits := Nat.zero_le _
  room := Nat.zero_le _
  alloc := le_rfl
  compress := rfl
  data := fun h => absurd rfl h

/-- With compression a peer reads the packets, however their bytes are cut into blocks, exactly when between a packet whose last
frame is empty and one whose first frame has a length with a low byte there is always the end of a block. -/
theorem readPackets_compressed_iff {z : Zlib} (hz : z.Lawful) (nr : UInt32) (cut : Nat → Nat) (buff : Nat → UInt8)
    (maxPacket maxPacketSize : Nat) {packets : List (List UInt8)} {nrs : List UInt32} (hnrs : nrs.length = packets.length)
    {gs : List (List UInt8)} (hgs : gs.flatten = numbered nrs packets) (hne : ∀ g ∈ gs, g ≠ [])
    (hblock : ∀ g ∈ gs, g.length ≤ maxPacketLength) (hsize : ∀ g ∈ gs, g.length < maxPacketSize) : (∃ fuel receiver,
      readPackets z fuel packets.length
          { myNetInit ⟨wire z true nr gs, cut, 0⟩ buff maxPacket maxPacketSize true with pktNr := nr } =
        .ok (packets, receiver)) ↔
      ∀ i p q, packets[i]? = some p → packets[i + 1]? = some q → EndsEmpty p → firstLength q % 256 ≠ 0 →
        ∃ k, (gs.take k).flatten.length = ((packets.take (i + 1)).map framesLength).sum := by
  rw [readPackets_restored_iff hz (left_init _ _ _ _ nr) ⟨rfl, hne, hblock, hsize⟩ hnrs hgs]
  simp only [Restored, Boundary, length_nil, zero_add]

def marking : Zlib := ⟨fun packet => 0 :: packet, fun _ bs => some bs.tail⟩

theorem lawful_marking : marking.Lawful := ⟨fun _ => rfl, fun _ => cons_ne_nil _ _⟩

theorem readPackets_compressed_iff_two : ∃ fuel receiver,
      readPackets marking fuel 2
          { myNetInit ⟨wire marking true 255 [[2, 0, 0, 9, 1], [2, 1, 0, 0, 10], [3]], fun _ => 1, 0⟩ (fun _ => 0) 1 6 true with
            pktNr := 255 } =
        .ok ([[1, 2], [3]], receiver) := by
  refine (@readPackets_compressed_iff marking lawful_marking 255 (fun _ => 1) (fun _ => 0) 1 6 [[1, 2], [3]] [9, 10] rfl
    [[2, 0, 0, 9, 1], [2, 1, 0, 0, 10], [3]] rfl (by decide) (by decide) (by decide)).2 ?_
  rintro (_ | _ | i) p q hp hq hends
  · cases hp
    exact absurd hends (by decide)
  · cases hq
  · cases hp

/-- After a packet of 2 ^ 24 - 1 bytes the next one is lost, if its header comes in the block of the empty frame. -/
theorem not_readPackets_empty_frame (hlen : packet.length = maxPacketLength) (cut : Nat → Nat) (buff : Nat → UInt8)
    (maxPacket : Nat) : ¬ ∃ fuel receiver, readPackets marking fuel 2
          (myNetInit ⟨wire marking true 0 [[255, 255, 255, 0], packet, [0, 0, 0, 1, 1, 0, 0, 2, 7]], cut, 0⟩ buff maxPacket (2 ^ 24)
            true) =
        .ok ([packet, [7]], receiver) := by
  rintro ⟨fuel, receiver, hread⟩
  have hpos : 9 < maxPacketLength := by decide
  have hmax : maxPacketLength < 2 ^ 24 := by decide
  have hstream : [[255, 255, 255, 0], packet, [0, 0, 0, 1, 1, 0, 0, 2, 7]].flatten = numbered [0, 2] [packet, [7]] := by
    show [255, 255, 255, 0] ++ (packet ++ [0, 0, 0, 1, 1, 0, 0, 2, 7]) = frames 0 packet ++ (frames 2 [7] ++ [])
    rw [frames_of_le 0 hlen.ge, take_of_length_le hlen.le, drop_of_length_le hlen.le, frames_of_lt (0 + 1) (by decide),
      frames_of_lt 2 (by decide), frame, hlen, append_assoc, append_assoc]
    rfl
  have hin : Incoming marking
      (myNetInit ⟨wire marking true 0 [[255, 255, 255, 0], packet, [0, 0, 0, 1, 1, 0, 0, 2, 7]], cut, 0⟩ buff maxPacket (2 ^ 24) true)
      [[255, 255, 255, 0], packet, [0, 0, 0, 1, 1, 0, 0, 2, 7]] := by
    refine ⟨rfl, ?_, ?_, ?_⟩
    all_goals rw [forall_mem_cons, forall_mem_cons, forall_mem_singleton]
    · exact ⟨cons_ne_nil _ _, ne_nil_of_length_pos (by omega), cons_ne_nil _ _⟩
    · exact ⟨by decide, hlen.le, by decide⟩
    exact ⟨by show 4 < 2 ^ 24; decide, hlen.trans_lt hmax, by show 9 < 2 ^ 24; decide⟩
  have hrestored := (@readPackets_restored_iff marking _ _ [packet, [7]] _ _ lawful_marking (left_init _ _ _ _ 0) hin rfl hstream).1
    ⟨fuel, receiver, hread⟩
  obtain ⟨k, hk⟩ := hrestored 0 _ _ rfl rfl ⟨ne_nil_of_length_pos (by omega), by rw [hlen, Nat.mod_self]⟩ (by decide)
  have hend : (([packet, [7]].take (0 + 1)).map framesLength).sum = maxPacketLength + 8 := by
    show framesLength packet + 0 = maxPacketLength + 8
    rw [framesLength, fullCount, hlen]
    rfl
  rw [hend, length_nil, zero_add] at hk
  rcases k with _ | _ | _ | k <;> simp at hk <;> omega

/-- A packet of 2 ^ 24 - 1 zeros and one of one byte. -/
theorem not_readPackets_zeros : ¬ ∃ fuel receiver,
      readPackets marking fuel 2
          (myNetInit ⟨wire marking true 0 [[255, 255, 255, 0], List.replicate maxPacketLength 0, [0, 0, 0, 1, 1, 0, 0, 2, 7]],
            fun _ => 1, 0⟩ (fun _ => 0) 8192 (2 ^ 24) true) =
        .ok ([List.replicate maxPacketLength 0, [7]], receiver) :=
  not_readPackets_empty_frame length_replicate _ _ _

end Mysql51.Protocol
