import Mysql51.Innodb.MemPool
import Mysql51.Lib.Dyadic
import Mathlib.Data.Nat.Log
import Mathlib.Data.Nat.Bitwise

/-!
# The buddy invariant

The areas of the pool tile it by aligned blocks, each begins with its header, the free lists hold the blocks whose free bit is
set, and no two halves of an aligned block are free. This is kept by each piece of the allocator: taking a free area, splitting
one, merging an area with its buddy and giving it back.
-/

namespace Mysql51.Innodb.MemPool

open Dyadic Function List

/-! ### Words and logarithms -/

theorem ut2Exp_eq (n : Nat) : ut2Exp n = 2 ^ n := Nat.one_shiftLeft n

variable {n : Nat} {b : Block}

theorem ut2LogLoop_eq {fuel : Nat} (h : n < 2 ^ (fuel + 1)) : ut2LogLoop fuel n = Nat.log 2 n := by
  induction fuel generalizing n with
  | zero => exact (Nat.log_of_lt (by simpa using h)).symm
  | succ fuel ih =>
    rw [ut2LogLoop]
    split_ifs with hzero
    · exact (Nat.log_of_lt (by omega)).symm
    rw [ih (by rw [pow_succ] at h; omega), Nat.log_div_base]
    have hpos : 0 < Nat.log 2 n := Nat.log_pos (by omega) (by omega)
    omega

theorem lt_pow_ut2Log (hlt : n ≤ 2 ^ 64) : n ≤ 2 ^ ut2Log n := by
  rw [ut2Log, ut2LogLoop_eq (by omega)]
  have hpow := Nat.lt_pow_succ_log_self (b := 2) (by omega) (n - 1)
  omega

theorem pow_ut2Log_lt (hlt : n ≤ 2 ^ 64) (htwo : 2 ≤ n) : 2 ^ (ut2Log n - 1) < n := by
  rw [ut2Log, ut2LogLoop_eq (by omega), Nat.add_sub_cancel]
  have hpow := Nat.pow_log_le_self 2 (x := n - 1) (by omega)
  omega

theorem ut2Log_pos (n : Nat) : 0 < ut2Log n := Nat.succ_pos _

theorem ut2Log_two_pow {k : Nat} (hpos : 0 < k) (hlt : k ≤ 64) : ut2Log (2 ^ k) = k := by
  have hle : 2 ^ k ≤ 2 ^ 64 := Nat.pow_le_pow_right (by omega) hlt
  have htwo : 2 ^ 1 ≤ 2 ^ k := Nat.pow_le_pow_right (by omega) hpos
  have hupper := (Nat.pow_le_pow_iff_right (by omega)).1 (lt_pow_ut2Log hle)
  have hlower := (Nat.pow_lt_pow_iff_right (by omega)).1 (pow_ut2Log_lt hle htwo)
  omega

theorem lor_of_even {b s : Nat} (hb : b < 2) (hs : s % 2 = 0) : b ||| s = s + b := by
  have heq := Nat.two_pow_add_eq_or_of_lt (i := 1) hb (s / 2)
  rw [pow_one, Nat.mul_div_cancel' (Nat.dvd_of_mod_eq_zero hs)] at heq
  rw [Nat.lor_comm, heq]

section words

variable (word : Nat) {size : Nat} (free : Bool)

theorem memAreaGetSize_setSize (hsize : size % 2 = 0) : memAreaGetSize (memAreaSetSize word size) = size := by
  rw [memAreaSetSize, lor_of_even (Nat.mod_lt _ (by omega)) hsize, memAreaGetSize]
  omega

theorem memAreaGetFree_setSize (hsize : size % 2 = 0) : memAreaGetFree (memAreaSetSize word size) = memAreaGetFree word := by
  rw [memAreaSetSize, lor_of_even (Nat.mod_lt _ (by omega)) hsize, memAreaGetFree, memAreaGetFree]
  congr 1
  apply propext
  omega

theorem memAreaSetFree_eq : memAreaSetFree word free = word - word % 2 + free.toNat := by
  have hlt : free.toNat < 2 := by cases free <;> decide
  rw [memAreaSetFree, Nat.lor_comm, lor_of_even hlt (by omega)]

theorem memAreaGetSize_setFree : memAreaGetSize (memAreaSetFree word free) = memAreaGetSize word := by
  rw [memAreaSetFree_eq, memAreaGetSize, memAreaGetSize]
  cases free
  · simp only [Bool.toNat_false]
    omega
  simp only [Bool.toNat_true]
  omega

theorem memAreaGetFree_setFree : memAreaGetFree (memAreaSetFree word free) = free := by
  rw [memAreaSetFree_eq, memAreaGetFree]
  cases free
  · simp only [Bool.toNat_false, decide_eq_false_iff_not]
    omega
  simp only [Bool.toNat_true, decide_eq_true_iff]
  omega

end words

/-! ### The invariant -/

def Pool.isFree (pool : Pool) (area : Nat) : Bool := memAreaGetFree (pool.word area)

/-- The buddy invariant, in which an area in `except` may be free beside its free buddy. -/
structure Inv (pool : Pool) (bs : Finset Block) (except : Nat → Prop) : Prop where
  tiles : Tiles pool.size bs
  small : ∀ b ∈ bs, 6 ≤ b.log
  header : ∀ b ∈ bs, memAreaGetSize (pool.word b.start) = b.size
  nodup : ∀ i, (pool.freeList i).Nodup
  mem : ∀ i area, area ∈ pool.freeList i ↔ ⟨area, i⟩ ∈ bs ∧ pool.isFree area = true
  apart : ∀ b ∈ bs, b.next ∈ bs → b.double.size ∣ b.start → ¬ except b.start →
    ¬ (pool.isFree b.start = true ∧ pool.isFree b.next.start = true)
  reserved : pool.reserved = ∑ b ∈ bs with pool.isFree b.start = false, b.size

def Keeps (pool pool' : Pool) (bs bs' : Finset Block) (except : Block → Prop) : Prop :=
  ∀ b ∈ bs, pool.isFree b.start = false → ¬ except b → b ∈ bs' ∧ pool'.isFree b.start = false

theorem even_two_pow (h : 6 ≤ n) : 2 ^ n % 2 = 0 := by
  exact Nat.mod_eq_zero_of_dvd (dvd_pow_self 2 (by omega))

section

variable {pool : Pool} {bs : Finset Block} {except : Nat → Prop} (h : Inv pool bs except)
include h

theorem Inv.start_ne {c : Block} (hb : b ∈ bs)
    (hc : c ∈ bs) (hne : c ≠ b) {x : Nat} (hx : b.start ≤ x ∧ x < b.stop) : c.start ≠ x := by
  rintro rfl
  exact hne (h.tiles.eq_of_mem hc hb ⟨le_rfl, c.start_lt_stop⟩ hx)

theorem Inv.log_lt (hsize : pool.size < 2 ^ 63) (hb : b ∈ bs) : b.log < 63 := by
  have hwithin := h.tiles.within b hb
  rw [b.stop_eq] at hwithin
  have hlt := lt_of_le_of_lt (Nat.le_of_add_left_le hwithin) hsize
  exact (Nat.pow_lt_pow_iff_right (by omega)).1 hlt

theorem Inv.mem_remove {i area : Nat} (harea : ⟨area, i⟩ ∈ bs) (j x : Nat) :
    x ∈ update pool.freeList i ((pool.freeList i).erase area) j ↔ x ∈ pool.freeList j ∧ x ≠ area := by
  by_cases hj : j = i
  · subst hj
    rw [update_self, (h.nodup j).mem_erase_iff, and_comm]
  rw [update_of_ne hj]
  refine ⟨fun hx => ⟨hx, ?_⟩, fun hx => hx.1⟩
  rintro rfl
  have heq := h.tiles.eq_of_start ((h.mem j x).1 hx).1 harea rfl
  exact hj (congrArg Block.log heq)

theorem Inv.nodup_remove (i area j : Nat) : (update pool.freeList i ((pool.freeList i).erase area) j).Nodup := by
  by_cases hj : j = i
  · subst hj
    rw [update_self]
    exact (h.nodup j).erase area
  rw [update_of_ne hj]
  exact h.nodup j

end

section steps

variable {pool : Pool} {bs : Finset Block} {except : Nat → Prop}

/-- Setting the free bit of an area changes nothing else in the headers. -/
theorem setFree_word {pool' : Pool} {area : Nat} {free : Bool}
    (hword : pool'.word = update pool.word area (memAreaSetFree (pool.word area) free)) (x : Nat) :
    pool'.isFree x = (if x = area then free else pool.isFree x) ∧ memAreaGetSize (pool'.word x) = memAreaGetSize (pool.word x) := by
  rw [Pool.isFree, hword, update_apply]
  split_ifs with heq
  · exact heq ▸ ⟨memAreaGetFree_setFree _ _, memAreaGetSize_setFree _ _⟩
  · exact ⟨rfl, rfl⟩

/-! ### Taking an area -/

theorem Inv.take (h : Inv pool bs except) {area : Nat} (harea : ⟨area, n⟩ ∈ bs) (hfree : pool.isFree area = true)
    (hexcept : ∀ a, except a → a = area) :
    Inv (pool.take n area) bs (fun _ => False) ∧ Keeps pool (pool.take n area) bs bs (fun _ => False) ∧
      (pool.take n area).isFree area = false := by
  have hset := @setFree_word pool (pool.take n area) area false rfl
  have hbit : ∀ x, (pool.take n area).isFree x = true ↔ x ≠ area ∧ pool.isFree x = true := by
    intro x
    rw [(hset x).1]
    split <;> simp [*]
  have hbit' : ∀ x, (pool.take n area).isFree x = false ↔ x = area ∨ pool.isFree x = false := by
    intro x
    rw [(hset x).1]
    split <;> simp [*]
  refine ⟨⟨h.tiles, h.small, fun b hb => (hset _).2.trans (h.header b hb), h.nodup_remove n area, fun j x => ?_,
    fun b hb hnext hdvd _ hboth => ?_, ?_⟩, fun b hb hused _ => ⟨hb, (hbit' _).2 (.inr hused)⟩, (hbit' _).2 (.inl rfl)⟩
  · refine (h.mem_remove harea j x).trans ?_
    rw [h.mem, and_assoc, hbit]
    exact and_congr_right fun _ => and_comm
  · have hfirst := (hbit _).1 hboth.1
    have hsecond := (hbit _).1 hboth.2
    exact h.apart b hb hnext hdvd (fun hex => hfirst.1 (hexcept _ hex)) ⟨hfirst.2, hsecond.2⟩
  have hused : (bs.filter fun b => (pool.take n area).isFree b.start = false) =
      insert ⟨area, n⟩ (bs.filter fun b => pool.isFree b.start = false) := by
    ext b
    rw [Finset.mem_filter, Finset.mem_insert, Finset.mem_filter, hbit']
    constructor
    · rintro ⟨hb, hstart | hused⟩
      · exact .inl (h.tiles.eq_of_start hb harea hstart)
      · exact .inr ⟨hb, hused⟩
    rintro (rfl | ⟨hb, hused⟩)
    · exact ⟨harea, .inl rfl⟩
    · exact ⟨hb, .inr hused⟩
  have hnot : (⟨area, n⟩ : Block) ∉ bs.filter fun b => pool.isFree b.start = false := by
    simp [hfree]
  have hreserved : (pool.take n area).reserved = pool.reserved + memAreaGetSize ((pool.take n area).word area) := rfl
  rw [hused, Finset.sum_insert hnot, ← h.reserved, hreserved, (hset area).2, h.header _ harea, Nat.add_comm]

/-! ### Splitting an area -/

theorem Inv.split (h : Inv pool bs except) {i area : Nat} (hi : 6 ≤ i) (harea : ⟨area, i + 1⟩ ∈ bs)
    (hfree : pool.isFree area = true) (hexcept : ∀ a, except a → a = area) :
    Inv (pool.split i area) (Tiles.split bs ⟨area, i⟩) (· = area) ∧
      Keeps pool (pool.split i area) bs (Tiles.split bs ⟨area, i⟩) (fun _ => False) := by
  set pool' := pool.split i area with hpool
  have hpos : 0 < 2 ^ i := Nat.two_pow_pos i
  have heven := even_two_pow hi
  have hword : pool'.word = update (update pool.word (area + 2 ^ i)
      (memAreaSetFree (memAreaSetSize (pool.word (area + 2 ^ i)) (2 ^ i)) true)) area (memAreaSetSize (pool.word area) (2 ^ i)) := by
    have hne : area ≠ area + 2 ^ i := by omega
    simp only [hpool, Pool.split, Pool.addFirst, Pool.setWord, Pool.remove, ut2Exp_eq, update_of_ne hne]
  have hfirst : pool'.word area = memAreaSetSize (pool.word area) (2 ^ i) := by
    rw [hword, update_self]
  have hsecond : pool'.word (area + 2 ^ i) = memAreaSetFree (memAreaSetSize (pool.word (area + 2 ^ i)) (2 ^ i)) true := by
    rw [hword, update_of_ne (by omega), update_self]
  have hfree₁ : pool'.isFree area = true := by
    rw [Pool.isFree, hfirst, memAreaGetFree_setSize _ heven]
    exact hfree
  have hfree₂ : pool'.isFree (area + 2 ^ i) = true := by
    rw [Pool.isFree, hsecond, memAreaGetFree_setFree]
  -- the other areas are outside of the one that is split
  have hout : ∀ c ∈ bs, c ≠ ⟨area, i + 1⟩ → c.start ≠ area ∧ c.start ≠ area + 2 ^ i := by
    intro c hc hne
    constructor
    · exact h.start_ne harea hc hne ⟨le_rfl, Block.start_lt_stop ⟨area, i + 1⟩⟩
    refine h.start_ne harea hc hne ⟨Nat.le_add_right _ _, ?_⟩
    show area + 2 ^ i < area + 2 ^ (i + 1)
    rw [pow_succ]
    omega
  have hsame : ∀ c ∈ bs, c ≠ ⟨area, i + 1⟩ → pool'.word c.start = pool.word c.start := by
    intro c hc hne
    obtain ⟨h₁, h₂⟩ := hout c hc hne
    rw [hword, update_of_ne h₁, update_of_ne h₂]
  have hbit : ∀ c ∈ bs, c ≠ ⟨area, i + 1⟩ → pool'.isFree c.start = pool.isFree c.start := fun c hc hne =>
    congrArg memAreaGetFree (hsame c hc hne)
  have hfreeList : pool'.freeList = update (update pool.freeList (i + 1)
      ((pool.freeList (i + 1)).erase area)) i (area :: (area + 2 ^ i) :: pool.freeList i) := by
    simp [hpool, Pool.split, Pool.addFirst, Pool.setWord, Pool.remove, ut2Exp_eq]
  have hlists : ∀ j x, x ∈ pool'.freeList j ↔ j = i ∧ (x = area ∨ x = area + 2 ^ i) ∨ x ∈ pool.freeList j ∧ x ≠ area := by
    intro j x
    rw [← h.mem_remove harea j x, hfreeList]
    by_cases hj : j = i
    · subst hj
      simp [or_assoc]
    simp [hj]
  have hold : ∀ x, x ∈ pool.freeList i → x ≠ area ∧ x ≠ area + 2 ^ i := by
    intro x hx
    refine hout _ ((h.mem i x).1 hx).1 fun heq => ?_
    have hlog := congrArg Block.log heq
    exact absurd hlog (Nat.ne_of_lt (Nat.lt_succ_self i))
  refine ⟨⟨h.tiles.splits harea, fun c hc => ?_, fun c hc => ?_, fun j => ?_, fun j x => ?_, fun c hc hnext hdvd hstart hboth => ?_, ?_⟩,
    fun c hc hused _ => ?_⟩
  · rcases Tiles.mem_split.1 hc with rfl | rfl | ⟨-, hc⟩
    · exact hi
    · exact hi
    exact h.small c hc
  · rcases Tiles.mem_split.1 hc with rfl | rfl | ⟨hne, hc⟩
    · exact (congrArg memAreaGetSize hfirst).trans (memAreaGetSize_setSize _ heven)
    · refine (congrArg memAreaGetSize hsecond).trans ?_
      rw [memAreaGetSize_setFree, memAreaGetSize_setSize _ heven]
      rfl
    rw [hsame c hc hne]
    exact h.header c hc
  · by_cases hj : j = i
    · subst hj
      rw [hfreeList, update_self, nodup_cons, nodup_cons, mem_cons]
      refine ⟨?_, fun hmem => (hold _ hmem).2 rfl, h.nodup j⟩
      rintro (heq | hmem)
      · omega
      · exact (hold _ hmem).1 rfl
    rw [hfreeList, update_of_ne hj]
    exact h.nodup_remove (i + 1) area j
  · rw [hlists, h.mem, Tiles.mem_split]
    constructor
    · rintro (⟨rfl, rfl | rfl⟩ | ⟨⟨hx, hfreex⟩, hne⟩)
      · exact ⟨.inl rfl, hfree₁⟩
      · exact ⟨.inr (.inl rfl), hfree₂⟩
      have hne' : (⟨x, j⟩ : Block) ≠ ⟨area, i + 1⟩ := fun heq => hne (congrArg Block.start heq)
      exact ⟨.inr (.inr ⟨hne', hx⟩), (hbit _ hx hne').trans hfreex⟩
    rintro ⟨heq | heq | ⟨hne, hx⟩, hfreex⟩
    · exact .inl ⟨congrArg Block.log heq, .inl (congrArg Block.start heq)⟩
    · exact .inl ⟨congrArg Block.log heq, .inr (congrArg Block.start heq)⟩
    exact .inr ⟨⟨hx, (hbit _ hx hne).symm.trans hfreex⟩, (hout _ hx hne).1⟩
  · have haligned : 2 ^ (i + 1) ∣ area := h.tiles.aligned _ harea
    have hhalf : ¬ 2 ^ (i + 1) ∣ 2 ^ i := fun hdvd => by
      have hle := Nat.le_of_dvd hpos hdvd
      rw [pow_succ] at hle
      omega
    rcases Tiles.mem_split.1 hc with rfl | rfl | ⟨hne, hc'⟩
    · exact hstart rfl
    · exact hhalf ((Nat.dvd_add_right haligned).1 hdvd)
    rcases Tiles.mem_split.1 hnext with heq | heq | ⟨hne', hnext'⟩
    · obtain rfl : c.log = i := congrArg Block.log heq
      have hstart' : c.start + 2 ^ c.log = area := congrArg Block.start heq
      exact hhalf ((Nat.dvd_add_right hdvd).1 (hstart' ▸ haligned))
    · obtain rfl : c.log = i := congrArg Block.log heq
      have hstart' := congrArg Block.start heq
      exact hstart (Nat.add_right_cancel hstart')
    rw [hbit c hc' hne, hbit _ hnext' hne'] at hboth
    exact h.apart c hc' hnext' hdvd (fun hex => hstart (hexcept _ hex)) hboth
  · have hset : ((Tiles.split bs ⟨area, i⟩).filter fun c => pool'.isFree c.start = false) =
        bs.filter fun c => pool.isFree c.start = false := by
      ext c
      rw [Finset.mem_filter, Finset.mem_filter, Tiles.mem_split]
      constructor
      · rintro ⟨rfl | rfl | ⟨hne, hc⟩, hused⟩
        · exact nomatch hused.symm.trans hfree₁
        · exact nomatch hused.symm.trans hfree₂
        exact ⟨hc, (hbit c hc hne).symm.trans hused⟩
      rintro ⟨hc, hused⟩
      have hne : c ≠ ⟨area, i + 1⟩ := by
        rintro rfl
        exact nomatch hused.symm.trans hfree
      exact ⟨.inr (.inr ⟨hne, hc⟩), (hbit c hc hne).trans hused⟩
    rw [hset]
    exact h.reserved
  have hne : c ≠ ⟨area, i + 1⟩ := by
    rintro rfl
    exact nomatch hused.symm.trans hfree
  exact ⟨Tiles.mem_split.2 (.inr (.inr ⟨hne, hc⟩)), (hbit c hc hne).trans hused⟩

/-! ### Merging an area with its buddy -/

theorem Inv.merge (h : Inv pool bs fun _ => False) (hb : b ∈ bs) (hnext : b.next ∈ bs)
    (hdvd : b.double.size ∣ b.start) {free used : Block} (hhalves : free = b ∧ used = b.next ∨ free = b.next ∧ used = b)
    (hfree : pool.isFree free.start = true) (hused : pool.isFree used.start = false) {f : Nat → Nat}
    (hsize : memAreaGetSize (f (pool.word b.start)) = b.double.size) (hbit : memAreaGetFree (f (pool.word b.start)) = false) :
    Inv (pool.merge b.log b.start free.start f) (Tiles.join bs b) (fun _ => False) ∧
      (pool.merge b.log b.start free.start f).isFree b.start = false ∧
      Keeps pool (pool.merge b.log b.start free.start f) bs (Tiles.join bs b) (fun c => c = used) := by
  set pool' := pool.merge b.log b.start free.start f
  have hfreemem : free ∈ bs := by rcases hhalves with ⟨rfl, -⟩ | ⟨rfl, -⟩ <;> assumption
  have husedmem : used ∈ bs := by rcases hhalves with ⟨-, rfl⟩ | ⟨-, rfl⟩ <;> assumption
  have hfreelog : free.log = b.log := by rcases hhalves with ⟨rfl, -⟩ | ⟨rfl, -⟩ <;> rfl
  have husedsize : used.size = b.size := by rcases hhalves with ⟨-, rfl⟩ | ⟨-, rfl⟩ <;> rfl
  -- a block that is neither half is neither of the two
  have hother : ∀ c, c ≠ b.next ∧ c ≠ b ↔ c ≠ free ∧ c ≠ used := by
    intro c
    rcases hhalves with ⟨rfl, rfl⟩ | ⟨rfl, rfl⟩
    · exact and_comm
    · exact Iff.rfl
  have hfirst : pool'.word b.start = f (pool.word b.start) := update_self _ _ _
  have hfirstbit : pool'.isFree b.start = false := (congrArg memAreaGetFree hfirst).trans hbit
  have hsame : ∀ c ∈ bs, c ≠ b → pool'.word c.start = pool.word c.start := fun c hc hne =>
    update_of_ne (fun heq => hne (h.tiles.eq_of_start hc hb heq)) _ _
  have hsamebit : ∀ c ∈ bs, c ≠ b → pool'.isFree c.start = pool.isFree c.start := fun c hc hne =>
    congrArg memAreaGetFree (hsame c hc hne)
  have hkeeps : Keeps pool pool' bs (Tiles.join bs b) (fun c => c = used) := by
    intro c hc hcused hne
    have hne' : c ≠ free := by
      rintro rfl
      exact nomatch hcused.symm.trans hfree
    obtain ⟨hcn, hcb⟩ := (hother c).2 ⟨hne', hne⟩
    exact ⟨Tiles.mem_join.2 (.inr ⟨hcn, hcb, hc⟩), (hsamebit c hc hcb).trans hcused⟩
  refine ⟨⟨h.tiles.joins hb hnext hdvd, fun c hc => ?_, fun c hc => ?_, h.nodup_remove b.log free.start, fun j x => ?_,
    fun c hc hcnext hcdvd _ hboth => ?_, ?_⟩, hfirstbit, hkeeps⟩
  · rcases Tiles.mem_join.1 hc with rfl | ⟨-, -, hc⟩
    · exact Nat.le_succ_of_le (h.small b hb)
    · exact h.small c hc
  · rcases Tiles.mem_join.1 hc with rfl | ⟨-, hne, hc⟩
    · exact (congrArg memAreaGetSize hfirst).trans hsize
    rw [hsame c hc hne]
    exact h.header c hc
  · have hfree' : (⟨free.start, b.log⟩ : Block) ∈ bs := hfreelog ▸ hfreemem
    refine (h.mem_remove hfree' j x).trans ?_
    rw [h.mem, Tiles.mem_join]
    constructor
    · rintro ⟨⟨hx, hfreex⟩, hne⟩
      have hneused : (⟨x, j⟩ : Block) ≠ used := by
        rintro rfl
        exact nomatch hused.symm.trans hfreex
      obtain ⟨hcn, hcb⟩ := (hother ⟨x, j⟩).2 ⟨fun heq => hne (congrArg Block.start heq), hneused⟩
      exact ⟨.inr ⟨hcn, hcb, hx⟩, (hsamebit _ hx hcb).trans hfreex⟩
    rintro ⟨heq | ⟨hcn, hcb, hx⟩, hfreex⟩
    · obtain rfl : x = b.start := congrArg Block.start heq
      exact nomatch hfirstbit.symm.trans hfreex
    have hne := ((hother ⟨x, j⟩).1 ⟨hcn, hcb⟩).1
    exact ⟨⟨hx, (hsamebit _ hx hcb).symm.trans hfreex⟩, fun heq => hne (h.tiles.eq_of_start hx hfreemem heq)⟩
  · rcases Tiles.mem_join.1 hc with rfl | ⟨-, hcb, hc'⟩
    · exact nomatch hfirstbit.symm.trans hboth.1
    rcases Tiles.mem_join.1 hcnext with heq | ⟨-, hcb', hcnext'⟩
    · have hstart : c.next.start = b.start := (congrArg Block.start heq).trans b.start_double
      rw [hstart] at hboth
      exact nomatch hfirstbit.symm.trans hboth.2
    rw [hsamebit c hc' hcb, hsamebit _ hcnext' hcb'] at hboth
    exact h.apart c hc' hcnext' hcdvd id hboth
  have hset : ((Tiles.join bs b).filter fun c => pool'.isFree c.start = false) =
      insert b.double ((bs.filter fun c => pool.isFree c.start = false).erase used) := by
    ext c
    rw [Finset.mem_filter, Finset.mem_insert, Finset.mem_erase, Finset.mem_filter, Tiles.mem_join]
    constructor
    · rintro ⟨rfl | ⟨hcn, hcb, hc⟩, hcused⟩
      · exact .inl rfl
      · exact .inr ⟨((hother c).1 ⟨hcn, hcb⟩).2, hc, (hsamebit c hc hcb).symm.trans hcused⟩
    rintro (rfl | ⟨hne, hc, hcused⟩)
    · exact ⟨.inl rfl, hfirstbit⟩
    obtain ⟨hmem, hcused'⟩ := hkeeps c hc hcused hne
    exact ⟨Tiles.mem_join.1 hmem, hcused'⟩
  have hnot : b.double ∉ (bs.filter fun c => pool.isFree c.start = false).erase used := by
    intro hmem
    have hdouble := (Finset.mem_filter.1 (Finset.mem_erase.1 hmem).2).1
    exact absurd (congrArg Block.log (h.tiles.eq_of_start hdouble hb rfl)) (Nat.succ_ne_self b.log)
  have hsum := Finset.add_sum_erase (bs.filter fun c => pool.isFree c.start = false) Block.size
    (Finset.mem_filter.2 ⟨husedmem, hused⟩)
  have hreserved : pool'.reserved = pool.reserved + b.size := by
    show pool.reserved + ut2Exp b.log = _
    rw [ut2Exp_eq]
    rfl
  rw [hset, Finset.sum_insert hnot, hreserved, h.reserved, ← hsum, husedsize, b.size_double]
  ring

/-! ### Giving an area back -/

theorem Inv.give (h : Inv pool bs fun _ => False) (hb : b ∈ bs) (hused : pool.isFree b.start = false)
    (hnext : b.next ∈ bs → b.double.size ∣ b.start → pool.isFree b.next.start = false)
    (hprev : ∀ c ∈ bs, c.next = b → c.double.size ∣ c.start → pool.isFree c.start = false) :
    Inv (pool.give b.log b.start b.size) bs (fun _ => False) ∧
      Keeps pool (pool.give b.log b.start b.size) bs bs (fun c => c = b) := by
  have hset := @setFree_word pool (pool.give b.log b.start b.size) b.start true rfl
  have hbit : ∀ x, (pool.give b.log b.start b.size).isFree x = true ↔ x = b.start ∨ pool.isFree x = true := by
    intro x
    rw [(hset x).1]
    split <;> simp [*]
  have hbit' : ∀ x, (pool.give b.log b.start b.size).isFree x = false ↔ x ≠ b.start ∧ pool.isFree x = false := by
    intro x
    rw [(hset x).1]
    split <;> simp [*]
  have hfreeList : (pool.give b.log b.start b.size).freeList = update pool.freeList b.log (b.start :: pool.freeList b.log) := rfl
  have hnot : b.start ∉ pool.freeList b.log := fun hmem =>
    nomatch hused.symm.trans ((h.mem _ _).1 hmem).2
  refine ⟨⟨h.tiles, h.small, fun c hc => (hset _).2.trans (h.header c hc), fun j => ?_, fun j x => ?_,
    fun c hc hcnext hcdvd _ hboth => ?_, ?_⟩, fun c hc hcused hne => ⟨hc, ?_⟩⟩
  · rw [hfreeList]
    by_cases hj : j = b.log
    · subst hj
      rw [update_self, nodup_cons]
      exact ⟨hnot, h.nodup _⟩
    rw [update_of_ne hj]
    exact h.nodup j
  · have hlist : x ∈ (pool.give b.log b.start b.size).freeList j ↔ (⟨x, j⟩ : Block) = b ∨ x ∈ pool.freeList j := by
      rw [hfreeList]
      by_cases hj : j = b.log
      · subst hj
        rw [update_self, mem_cons]
        refine or_congr ⟨?_, fun heq => congrArg Block.start heq⟩ Iff.rfl
        rintro rfl
        rfl
      rw [update_of_ne hj]
      exact ⟨.inr, fun hx => hx.resolve_left fun heq => hj (congrArg Block.log heq)⟩
    rw [hlist, h.mem, hbit]
    constructor
    · rintro (heq | ⟨hx, hfreex⟩)
      · exact ⟨heq ▸ hb, .inl (congrArg Block.start heq)⟩
      · exact ⟨hx, .inr hfreex⟩
    rintro ⟨hx, hstart | hfreex⟩
    · exact .inl (h.tiles.eq_of_start hx hb hstart)
    · exact .inr ⟨hx, hfreex⟩
  · rcases (hbit _).1 hboth.1 with hstart | hfirst
    · obtain rfl := h.tiles.eq_of_start hc hb hstart
      rcases (hbit _).1 hboth.2 with hstart' | hsecond
      · exact absurd hstart' (Nat.ne_of_gt (Nat.lt_add_of_pos_right c.size_pos))
      · exact nomatch (hnext hcnext hcdvd).symm.trans hsecond
    rcases (hbit _).1 hboth.2 with hstart' | hsecond
    · have heq := h.tiles.eq_of_start hcnext hb hstart'
      exact nomatch (hprev c hc heq hcdvd).symm.trans hfirst
    exact h.apart c hc hcnext hcdvd id ⟨hfirst, hsecond⟩
  · have hrest : (bs.filter fun c => (pool.give b.log b.start b.size).isFree c.start = false) =
        (bs.filter fun c => pool.isFree c.start = false).erase b := by
      ext c
      rw [Finset.mem_filter, Finset.mem_erase, Finset.mem_filter, hbit']
      constructor
      · rintro ⟨hc, hne, hcused⟩
        exact ⟨fun heq => hne (congrArg Block.start heq), hc, hcused⟩
      rintro ⟨hne, hc, hcused⟩
      exact ⟨hc, fun heq => hne (h.tiles.eq_of_start hc hb heq), hcused⟩
    have hsum := Finset.add_sum_erase (bs.filter fun c => pool.isFree c.start = false) Block.size
      (Finset.mem_filter.2 ⟨hb, hused⟩)
    have hreserved : (pool.give b.log b.start b.size).reserved = pool.reserved - b.size := rfl
    rw [hrest, hreserved, h.reserved, ← hsum, Nat.add_sub_cancel_left]
  exact (hbit' _).2 ⟨fun heq => hne (h.tiles.eq_of_start hc hb heq), hcused⟩

end steps

end Mysql51.Innodb.MemPool
