import Mysql51.Lib.Machine

/-!
# Numbers as lists of digits, highest first

The number of a list of digits in a base, its order, and the bytes of a number. `memcmp` on byte strings of one length is
the order of the numbers that they are in base 256.
-/

namespace Machine

open List

def ofBase (b : Nat) (ds : List Nat) : Nat := ds.foldl (fun n d => n * b + d) 0

@[simp] theorem ofBase_nil (b : Nat) : ofBase b [] = 0 := rfl

theorem foldl_ofBase (b n : Nat) (ds : List Nat) : ds.foldl (fun n d => n * b + d) n = n * b ^ ds.length + ofBase b ds := by
  induction ds generalizing n with
  | nil => simp
  | cons d ds ih =>
    have hcons : ofBase b (d :: ds) = (0 * b + d) * b ^ ds.length + ofBase b ds := ih (0 * b + d)
    rw [foldl_cons, ih, hcons, length_cons, pow_succ]
    ring

theorem ofBase_cons (b d : Nat) (ds : List Nat) : ofBase b (d :: ds) = d * b ^ ds.length + ofBase b ds := by
  rw [ofBase, foldl_cons, foldl_ofBase, zero_mul, zero_add]

theorem ofBase_append (b : Nat) (as bs : List Nat) : ofBase b (as ++ bs) = ofBase b as * b ^ bs.length + ofBase b bs := by
  rw [ofBase, foldl_append, foldl_ofBase]
  rfl

theorem ofBase_replicate_zero (b n : Nat) : ofBase b (List.replicate n 0) = 0 := by
  induction n with
  | zero => rfl
  | succ n ih => rw [replicate_succ, ofBase_cons, ih, zero_mul]

theorem ofBase_lt {b : Nat} {ds : List Nat} (h : ∀ d ∈ ds, d < b) : ofBase b ds < b ^ ds.length := by
  induction ds with
  | nil => simp
  | cons d ds ih =>
    have hd : d + 1 ≤ b := h d mem_cons_self
    have hrest := ih fun e he => h e (mem_cons_of_mem d he)
    rw [ofBase_cons, length_cons, pow_succ]
    calc d * b ^ ds.length + ofBase b ds < d * b ^ ds.length + b ^ ds.length := by omega
      _ = (d + 1) * b ^ ds.length := by ring
      _ ≤ b * b ^ ds.length := Nat.mul_le_mul_right _ hd
      _ = b ^ ds.length * b := mul_comm _ _

/-- The order of two numbers is that of their high parts, then that of their low parts. -/
theorem compare_mul_add {r a b m n : Nat} (hm : m < r) (hn : n < r) :
    compare (a * r + m) (b * r + n) = (compare a b).then (compare m n) := by
  rcases lt_trichotomy a b with hab | rfl | hab
  · have hle : (a + 1) * r ≤ b * r := Nat.mul_le_mul_right r hab
    rw [compare_lt_iff_lt.2 hab, compare_lt_iff_lt.2 (by rw [add_mul] at hle; omega)]
    rfl
  · have hcmp : compare (a * r + m) (a * r + n) = compare m n := by
      rcases lt_trichotomy m n with h | rfl | h
      · rw [compare_lt_iff_lt.2 h, compare_lt_iff_lt.2 (by omega)]
      · rw [compare_eq_iff_eq.2 rfl, compare_eq_iff_eq.2 rfl]
      rw [compare_gt_iff_gt.2 h, compare_gt_iff_gt.2 (by omega)]
    rw [hcmp, compare_eq_iff_eq.2 rfl]
    rfl
  have hle : (b + 1) * r ≤ a * r := Nat.mul_le_mul_right r hab
  rw [compare_gt_iff_gt.2 hab, compare_gt_iff_gt.2 (by rw [add_mul] at hle; omega)]
  rfl

def lexCompare : List Nat → List Nat → Ordering
  | a :: as, b :: bs => (compare a b).then (lexCompare as bs)
  | _, _ => .eq

theorem compare_ofBase {b : Nat} {as bs : List Nat} (hlen : as.length = bs.length) (ha : ∀ d ∈ as, d < b)
    (hb : ∀ d ∈ bs, d < b) : compare (ofBase b as) (ofBase b bs) = lexCompare as bs := by
  induction as generalizing bs with
  | nil =>
    rw [length_nil] at hlen
    rw [length_eq_zero_iff.1 hlen.symm]
    rfl
  | cons a as ih =>
    cases bs with
    | nil => cases hlen
    | cons c bs =>
      have hrest := Nat.succ.inj hlen
      have ha' : ∀ d ∈ as, d < b := fun d hd => ha d (mem_cons_of_mem a hd)
      have hb' : ∀ d ∈ bs, d < b := fun d hd => hb d (mem_cons_of_mem c hd)
      rw [ofBase_cons, ofBase_cons, hrest, compare_mul_add (hrest ▸ ofBase_lt ha') (ofBase_lt hb'), ih hrest ha' hb']
      rfl

def beBytes : Nat → Nat → List UInt8
  | 0, _ => []
  | n + 1, x => UInt8.ofNat (x / 256 ^ n) :: beBytes n x

def ofBeBytes (bs : List UInt8) : Nat := ofBase 256 (bs.map UInt8.toNat)

@[simp] theorem length_beBytes (n x : Nat) : (beBytes n x).length = n := by
  induction n with
  | zero => rfl
  | succ n ih => rw [beBytes, length_cons, ih]

theorem ofBeBytes_append (as bs : List UInt8) : ofBeBytes (as ++ bs) = ofBeBytes as * 256 ^ bs.length + ofBeBytes bs := by
  rw [ofBeBytes, map_append, ofBase_append, length_map]
  rfl

theorem ofBeBytes_cons (b : UInt8) (bs : List UInt8) : ofBeBytes (b :: bs) = b.toNat * 256 ^ bs.length + ofBeBytes bs := by
  rw [ofBeBytes, map_cons, ofBase_cons, length_map]
  rfl

theorem ofBeBytes_lt (bs : List UInt8) : ofBeBytes bs < 256 ^ bs.length := by
  have hdigit : ∀ d ∈ bs.map UInt8.toNat, d < 256 := by
    intro d hd
    obtain ⟨b, -, rfl⟩ := mem_map.1 hd
    exact b.toNat_lt
  have hlt := ofBase_lt hdigit
  rwa [length_map] at hlt

theorem ofBeBytes_beBytes (n x : Nat) : ofBeBytes (beBytes n x) = x % 256 ^ n := by
  induction n with
  | zero => simp [beBytes, ofBeBytes, Nat.mod_one]
  | succ n ih =>
    have hsplit : x % 256 ^ (n + 1) = x % 256 ^ n + 256 ^ n * (x / 256 ^ n % 256) := by rw [pow_succ, Nat.mod_mul]
    rw [beBytes, ofBeBytes_cons, ih, length_beBytes, UInt8.toNat_ofNat', hsplit]
    ring

theorem ofBeBytes_beBytes_of_lt {n x : Nat} (h : x < 256 ^ n) : ofBeBytes (beBytes n x) = x := by
  rw [ofBeBytes_beBytes, Nat.mod_eq_of_lt h]

theorem ofBeBytes_replicate_zero (n : Nat) : ofBeBytes (List.replicate n 0) = 0 := by
  rw [ofBeBytes, map_replicate]
  exact ofBase_replicate_zero 256 n

theorem ofBeBytes_inj {as bs : List UInt8} (hlen : as.length = bs.length) (h : ofBeBytes as = ofBeBytes bs) : as = bs := by
  induction as generalizing bs with
  | nil =>
    rw [length_nil] at hlen
    rw [length_eq_zero_iff.1 hlen.symm]
  | cons a as ih =>
    cases bs with
    | nil => cases hlen
    | cons b bs =>
      have hrest := Nat.succ.inj hlen
      rw [ofBeBytes_cons, ofBeBytes_cons, hrest] at h
      have hcmp := compare_mul_add (a := a.toNat) (b := b.toNat) (hrest ▸ ofBeBytes_lt as) (ofBeBytes_lt bs)
      rw [compare_eq_iff_eq.2 h, eq_comm, Ordering.then_eq_eq, compare_eq_iff_eq, compare_eq_iff_eq] at hcmp
      rw [UInt8.toNat_inj.1 hcmp.1, ih hrest hcmp.2]

theorem ofBeBytes_flatMap {n : Nat} {ws : List Nat} (h : ∀ w ∈ ws, w < 256 ^ n) :
    ofBeBytes (ws.flatMap (beBytes n)) = ofBase (256 ^ n) ws := by
  induction ws with
  | nil => rfl
  | cons w ws ih =>
    have hlen : (ws.flatMap (beBytes n)).length = n * ws.length := by
      rw [length_flatMap]
      simp [mul_comm]
    rw [flatMap_cons, ofBeBytes_append, ofBeBytes_beBytes_of_lt (h w mem_cons_self),
      ih fun v hv => h v (mem_cons_of_mem w hv), ofBase_cons, hlen, pow_mul]

theorem beBytes_add {n x : Nat} (h : x < 256 ^ n) (m : Nat) : beBytes (m + n) x = List.replicate m 0 ++ beBytes n x := by
  induction m with
  | zero => simp
  | succ m ih =>
    have hzero : x / 256 ^ (m + n) = 0 := by
      apply Nat.div_eq_of_lt
      exact lt_of_lt_of_le h (Nat.pow_le_pow_right (by decide) (by omega))
    rw [add_right_comm, beBytes, hzero, ih, replicate_succ]
    rfl

theorem beBytes_zero (n : Nat) : beBytes n 0 = List.replicate n 0 := by
  have hzero := beBytes_add (n := 0) (x := 0) (by decide) n
  simpa [beBytes] using hzero

theorem beBytes_xor (n x y : Nat) : beBytes n (x ^^^ y) = List.zipWith (· ^^^ ·) (beBytes n x) (beBytes n y) := by
  induction n with
  | zero => rfl
  | succ n ih =>
    have hpow : (256 : Nat) ^ n = 2 ^ (8 * n) := by rw [pow_mul]; rfl
    rw [beBytes, beBytes, beBytes, zipWith_cons_cons, ih, hpow, ← Nat.shiftRight_eq_div_pow, ← Nat.shiftRight_eq_div_pow,
      ← Nat.shiftRight_eq_div_pow, Nat.shiftRight_xor_distrib, UInt8.ofNat_xor]

theorem xor_two_pow_sub_one {n x : Nat} (h : x < 2 ^ n) : x ^^^ (2 ^ n - 1) = 2 ^ n - (x + 1) := by
  apply Nat.eq_of_testBit_eq
  intro i
  rw [Nat.testBit_xor, Nat.testBit_two_pow_sub_one, Nat.testBit_two_pow_sub_succ h]
  by_cases hi : i < n
  · simp [hi]
  have hbit :=
    Nat.testBit_lt_two_pow (lt_of_lt_of_le h (Nat.pow_le_pow_right (by decide) (not_lt.1 hi)))
  simp [hi, hbit]

theorem toNat_xor_not (b : UInt8) : (b ^^^ 0xff).toNat + b.toNat = 255 := by
  have hb := b.toNat_lt
  have hxor := xor_two_pow_sub_one hb
  rw [UInt8.toNat_xor, show (0xff : UInt8).toNat = 2 ^ 8 - 1 from rfl, hxor]
  omega

theorem ofBeBytes_map_not (bs : List UInt8) : ofBeBytes (bs.map (· ^^^ 0xff)) + ofBeBytes bs + 1 = 256 ^ bs.length := by
  induction bs with
  | nil => rfl
  | cons b bs ih =>
    rw [map_cons, ofBeBytes_cons, ofBeBytes_cons, length_map, length_cons, pow_succ]
    have hbyte : (b ^^^ 0xff).toNat * 256 ^ bs.length + b.toNat * 256 ^ bs.length = 255 * 256 ^ bs.length := by
      rw [← add_mul, toNat_xor_not]
    omega

def memcmp : List UInt8 → List UInt8 → Int
  | a :: as, b :: bs => if a = b then memcmp as bs else (a.toNat : Int) - b.toNat
  | _, _ => 0

theorem memcmp_iff {as bs : List UInt8} (hlen : as.length = bs.length) :
    (memcmp as bs < 0 ↔ ofBeBytes as < ofBeBytes bs) ∧ (0 < memcmp as bs ↔ ofBeBytes bs < ofBeBytes as) := by
  induction as generalizing bs with
  | nil =>
    rw [length_nil] at hlen
    rw [length_eq_zero_iff.1 hlen.symm]
    simp [memcmp]
  | cons a as ih =>
    cases bs with
    | nil => cases hlen
    | cons b bs =>
      have hrest := Nat.succ.inj hlen
      rw [memcmp, ofBeBytes_cons, ofBeBytes_cons, hrest]
      by_cases hab : a = b
      · rw [if_pos hab, hab, Nat.add_lt_add_iff_left, Nat.add_lt_add_iff_left]
        exact ih hrest
      have hne : a.toNat ≠ b.toNat := fun h => hab (UInt8.toNat_inj.1 h)
      have ha := hrest ▸ ofBeBytes_lt as
      have hb := ofBeBytes_lt bs
      have hcmp := compare_mul_add (a := a.toNat) (b := b.toNat) ha hb
      rw [if_neg hab]
      rcases lt_or_gt_of_ne hne with hlt | hgt
      · rw [compare_lt_iff_lt.2 hlt] at hcmp
        have := compare_lt_iff_lt.1 hcmp
        omega
      rw [compare_gt_iff_gt.2 hgt] at hcmp
      have := compare_gt_iff_gt.1 hcmp
      omega

end Machine
