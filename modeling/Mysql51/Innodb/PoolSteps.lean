import Mysql51.Innodb.Buddy

/-!
# Allocating and freeing

`mem_pool_fill_free_list` splits areas down to the size that is asked for, and `mem_area_free` merges areas up as long as the
buddy is free. Both end, and keep the buddy invariant and the areas in use.
-/

namespace Mysql51.Innodb.MemPool

open Dyadic

variable {pool : Pool} {bs : Finset Block}

theorem Keeps.trans {pool₁ pool₂ pool₃ : Pool} {bs₁ bs₂ bs₃ : Finset Block} {except : Block → Prop}
    (h : Keeps pool₁ pool₂ bs₁ bs₂ fun _ => False) (h' : Keeps pool₂ pool₃ bs₂ bs₃ except) : Keeps pool₁ pool₃ bs₁ bs₃ except := by
  intro b hb hused hnot
  obtain ⟨hb', hused'⟩ := h b hb hused id
  exact h' b hb' hused' hnot

/-! ### Filling a free list -/

variable {except : Nat → Prop} {i area size buddy : Nat} {b : Block}

theorem Inv.exists_head (h : Inv pool bs except) (hhead : (pool.freeList i).head? = some area) :
    ⟨area, i⟩ ∈ bs ∧ pool.isFree area = true := by
  obtain ⟨rest, hlist⟩ := List.head?_eq_some_iff.1 hhead
  exact (h.mem i area).1 (hlist ▸ List.mem_cons_self)

theorem Pool.head?_split (pool : Pool) (i area : Nat) : ((pool.split i area).freeList i).head? = some area := by
  simp [Pool.split, Pool.addFirst]

theorem Inv.splitFirst (h : Inv pool bs except) (hi : 6 ≤ i) (hhead : (pool.freeList (i + 1)).head? = some area)
    (hexcept : ∀ a, except a → a = area) :
    ∃ pool' bs', splitFirst i pool = some pool' ∧ pool'.size = pool.size ∧ Inv pool' bs' (· = area) ∧
      (pool'.freeList i).head? = some area ∧ Keeps pool pool' bs bs' fun _ => False := by
  obtain ⟨harea, hfree⟩ := h.exists_head hhead
  obtain ⟨hinv, hkeeps⟩ := h.split hi harea hfree hexcept
  exact ⟨pool.split i area, _, by rw [MemPool.splitFirst, hhead, Option.map_some], rfl, hinv, pool.head?_split i area, hkeeps⟩

theorem Inv.fill {d : Nat} (h : Inv pool bs fun _ => False) (hi : 6 ≤ i) : memPoolFillFreeList d i pool = some (false, pool) ∨
      ∃ pool' bs' area, memPoolFillFreeList d i pool = some (true, pool') ∧ pool'.size = pool.size ∧
        Inv pool' bs' (· = area) ∧ (pool'.freeList i).head? = some area ∧ Keeps pool pool' bs bs' fun _ => False := by
  induction d generalizing i with
  | zero => exact .inl rfl
  | succ d ih =>
    rw [memPoolFillFreeList]
    cases hhead : (pool.freeList (i + 1)).head? with
    | some area =>
      obtain ⟨pool', bs', hsplit, hsize, hinv, hhead', hkeeps⟩ := h.splitFirst hi hhead fun _ hfalse => hfalse.elim
      rw [hsplit]
      exact .inr ⟨pool', bs', area, rfl, hsize, hinv, hhead', hkeeps⟩
    | none =>
      rcases ih (i := i + 1) (by omega) with hnone | ⟨mid, cs, area, hfill, hsize, hinv, hhead', hkeeps⟩
      · rw [hnone]
        exact .inl rfl
      obtain ⟨pool', bs', hsplit, hsize', hinv', hhead'', hkeeps'⟩ := hinv.splitFirst hi hhead' fun _ heq => heq
      rw [hfill]
      dsimp only
      rw [hsplit]
      exact .inr ⟨pool', bs', area, rfl, hsize'.trans hsize, hinv', hhead'', hkeeps.trans hkeeps'⟩

/-! ### Allocating -/

theorem six_le_allocLog (size : Nat) : 6 ≤ allocLog size := by
  have hmod : (size + memAreaExtraSize) % 2 ^ 64 < 2 ^ 64 := Nat.mod_lt _ (by omega)
  have hle : max ((size + memAreaExtraSize) % 2 ^ 64) memAreaMinSize ≤ 2 ^ 64 := max_le hmod.le (by decide)
  by_contra hlt
  have hpow : 2 ^ allocLog size ≤ 2 ^ 5 := Nat.pow_le_pow_right (by omega) (by omega)
  have hmin : memAreaMinSize ≤ 2 ^ allocLog size := (le_max_right _ _).trans (lt_pow_ut2Log hle)
  exact absurd (hmin.trans hpow) (by decide)

theorem allocLog_le (hsize : size + memAreaExtraSize ≤ 2 ^ 63) :
    allocLog size ≤ 63 ∧ size + memAreaExtraSize ≤ 2 ^ allocLog size := by
  have hmod : (size + memAreaExtraSize) % 2 ^ 64 = size + memAreaExtraSize := Nat.mod_eq_of_lt (by omega)
  have hle : max (size + memAreaExtraSize) memAreaMinSize ≤ 2 ^ 63 := max_le hsize (by decide)
  rw [allocLog, hmod]
  constructor
  · have hlt := pow_ut2Log_lt (n := max (size + memAreaExtraSize) memAreaMinSize) (by omega)
      ((by decide : 2 ≤ memAreaMinSize).trans (le_max_right _ _))
    have hlog := (Nat.pow_lt_pow_iff_right (by omega)).1 (hlt.trans_le hle)
    omega
  exact (le_max_left _ _).trans (lt_pow_ut2Log (by omega))

theorem Inv.takeArea (h : Inv pool bs except) {n : Nat} (hhead : (pool.freeList n).head? = some area)
    (hexcept : ∀ a, except a → a = area) :
    takeArea n pool = some (some (area + memAreaExtraSize), pool.take n area) ∧ Inv (pool.take n area) bs (fun _ => False) ∧
      Keeps pool (pool.take n area) bs bs (fun _ => False) ∧ ⟨area, n⟩ ∈ bs ∧ pool.isFree area = true ∧
      (pool.take n area).isFree area = false := by
  obtain ⟨harea, hfree⟩ := h.exists_head hhead
  obtain ⟨hinv, hkeeps, hused⟩ := h.take harea hfree hexcept
  refine ⟨?_, hinv, hkeeps, harea, hfree, hused⟩
  have hbit : memAreaGetFree (pool.word area) = true := hfree
  rw [MemPool.takeArea, hhead]
  exact if_neg (by simp [hbit])

/-- What `mem_area_alloc` returns from the pool: an area that was not in use and is large enough. -/
structure Allocated (pool pool' : Pool) (bs bs' : Finset Block) (n ptr : Nat) (b : Block) : Prop where
  mem : b ∈ bs'
  ptr : ptr = b.start + memAreaExtraSize
  log : b.log = n
  used : pool'.isFree b.start = false
  fresh : ∀ c ∈ bs, pool.isFree c.start = false → c ≠ b

theorem Inv.alloc (h : Inv pool bs fun _ => False) (hlog : allocLog size ≤ 63) (malloc : Bool) :
    memAreaAlloc size malloc pool = (utMalloc malloc).map (fun _ => (none, pool)) ∨
      ∃ ptr pool' bs' b, memAreaAlloc size malloc pool = some (some ptr, pool') ∧ pool'.size = pool.size ∧
        Inv pool' bs' (fun _ => False) ∧ Keeps pool pool' bs bs' (fun _ => False) ∧
        Allocated pool pool' bs bs' (allocLog size) ptr b := by
  rw [memAreaAlloc, if_neg (by omega)]
  cases hhead : (pool.freeList (allocLog size)).head? with
  | some area =>
    obtain ⟨htake, hinv, hkeeps, harea, hfree, hused⟩ := h.takeArea hhead fun _ hfalse => hfalse.elim
    refine .inr ⟨_, _, bs, ⟨area, allocLog size⟩, htake, rfl, hinv, hkeeps, harea, rfl, rfl, hused, ?_⟩
    rintro c hc hcused rfl
    exact nomatch hcused.symm.trans hfree
  | none =>
    rcases h.fill (d := 63 - allocLog size) (six_le_allocLog size) with hnone | ⟨mid, cs, area, hfill, hsize, hinv, hhead', hkeeps⟩
    · rw [hnone]
      exact .inl rfl
    obtain ⟨htake, hinv', hkeeps', harea, hfree, hused⟩ := hinv.takeArea hhead' fun _ heq => heq
    rw [hfill]
    refine .inr ⟨_, _, cs, ⟨area, allocLog size⟩, htake, hsize, hinv', hkeeps.trans hkeeps', harea, rfl, rfl, hused, ?_⟩
    rintro c hc hcused rfl
    exact nomatch (hkeeps _ hc hcused id).2.symm.trans hfree

/-! ### Freeing -/

theorem Inv.freeBuddy_eq_some (h : Inv pool bs fun _ => False) (hb : b ∈ bs) (hbuddy : freeBuddy b.start b.size pool = some buddy) :
    ∃ a free : Block, a.log = b.log ∧ a ∈ bs ∧ a.next ∈ bs ∧ a.double.size ∣ a.start ∧
      (free = a ∧ b = a.next ∨ free = a.next ∧ b = a) ∧ buddy = free.start ∧ pool.isFree free.start = true := by
  obtain ⟨hget, hfilter⟩ := Option.filter_eq_some_iff.1 hbuddy
  simp only [Bool.and_eq_true, decide_eq_true_iff] at hfilter
  obtain ⟨hfree, hsize⟩ := hfilter
  -- an area of the same size at the place of the buddy is the buddy
  have hsame : ∀ {c a : Block}, c ∈ bs → c.start = buddy → a.start = buddy → a.log = b.log → c = a := by
    intro c a hc hcstart hastart halog
    have hheader := h.header c hc
    rw [hcstart, ← hsize] at hheader
    have hlog : c.log = a.log := by
      rw [halog]
      exact (Nat.pow_right_injective (le_refl 2) hheader).symm
    cases c
    cases a
    simp_all
  have hdouble : b.double.size = 2 * b.size := by rw [b.size_double, two_mul]
  rw [memAreaGetBuddy] at hget
  split_ifs at hget with hdvd hout
  · obtain rfl := Option.some.inj hget
    rw [← hdouble] at hdvd
    have hdvd' := Nat.dvd_of_mod_eq_zero hdvd
    have hlt : b.next.start < pool.size := by
      have hpos := b.size_pos
      rw [b.start_next]
      omega
    obtain ⟨c, hc, hcstart, -⟩ := h.tiles.exists_next hb hdvd' hlt
    obtain rfl := hsame hc hcstart b.start_next rfl
    exact ⟨b, b.next, rfl, hb, hc, hdvd', .inr ⟨rfl, rfl⟩, rfl, hfree⟩
  obtain rfl := Option.some.inj hget
  have hodd : ¬ b.double.size ∣ b.start := by
    rw [hdouble]
    exact fun hd => hdvd (Nat.mod_eq_zero_of_dvd hd)
  obtain ⟨a, hnext, hlog, hstart, hadvd⟩ := Block.exists_eq_next (h.tiles.aligned b hb) hodd
  obtain ⟨c, hc, hcstart, -⟩ := h.tiles.exists_prev (hnext ▸ hb) hadvd
  obtain rfl := hsame hc (hcstart.trans hstart) hstart hlog
  exact ⟨c, c, hlog, hc, hnext ▸ hb, hadvd, .inl ⟨rfl, hnext.symm⟩, hstart.symm, hstart ▸ hfree⟩

theorem Inv.freeBuddy_eq_none (h : Inv pool bs fun _ => False) (hnone : freeBuddy b.start b.size pool = none) :
    (b.next ∈ bs → b.double.size ∣ b.start → pool.isFree b.next.start = false) ∧
      ∀ c ∈ bs, c.next = b → c.double.size ∣ c.start → pool.isFree c.start = false := by
  have hnot := Option.filter_eq_none_iff.1 hnone
  have hdouble : b.double.size = 2 * b.size := by rw [b.size_double, two_mul]
  constructor
  · intro hnext hdvd
    have hwithin := h.tiles.within _ hnext
    have hget : memAreaGetBuddy b.start b.size pool = some b.next.start := by
      rw [memAreaGetBuddy, if_pos (Nat.mod_eq_zero_of_dvd (hdouble ▸ hdvd)), if_neg]
      · rfl
      rw [b.stop_next] at hwithin
      omega
    have hfilter := hnot _ hget
    rw [h.header _ hnext] at hfilter
    simpa [Pool.isFree, Block.size, Block.next] using hfilter
  rintro c hc rfl hdvd
  have hget : memAreaGetBuddy c.next.start c.next.size pool = some c.start := by
    rw [memAreaGetBuddy, if_neg]
    · show some (c.start + c.size - c.size) = some c.start
      rw [Nat.add_sub_cancel]
    intro hmod
    have hdvd' : c.size + c.size ∣ c.start + c.size := by
      rw [← two_mul]
      exact Nat.dvd_of_mod_eq_zero hmod
    rw [c.size_double] at hdvd
    have hle := Nat.le_of_dvd c.size_pos ((Nat.dvd_add_right hdvd).1 hdvd')
    have hpos := c.size_pos
    omega
  have hfilter := hnot _ hget
  rw [h.header _ hc] at hfilter
  simpa [Pool.isFree, Block.size, Block.next] using hfilter

theorem ut2PowerUpLoop_two_pow {k j fuel : Nat} (hk : k ≤ 63) (hj : j ≤ k) (hfuel : k < fuel + j) :
    ut2PowerUpLoop (2 ^ k) fuel (2 ^ j) = some (2 ^ k) := by
  induction fuel generalizing j with
  | zero => omega
  | succ fuel ih =>
    rw [ut2PowerUpLoop]
    by_cases hlt : j < k
    · have hpow : 2 ^ j * 2 % 2 ^ 64 = 2 ^ (j + 1) := by
        rw [← pow_succ]
        exact Nat.mod_eq_of_lt (Nat.pow_lt_pow_right (by omega) (by omega))
      rw [if_pos (Nat.pow_lt_pow_right (by omega) hlt), hpow]
      exact ih hlt (by omega)
    · obtain rfl : j = k := by omega
      exact if_neg (lt_irrefl _)

/-- What follows an area of the pool is another one. -/
theorem Inv.nextOk (h : Inv pool bs fun _ => False) (hsize : pool.size < 2 ^ 63) (hb : b ∈ bs) :
    nextOk b.start b.size pool = true := by
  rw [MemPool.nextOk, ← b.stop_eq, Bool.or_eq_true, decide_eq_true_iff, decide_eq_true_iff]
  refine or_iff_not_imp_left.2 fun hinside => ?_
  obtain ⟨c, hc, hlow, hhigh⟩ := h.tiles.covers b.stop (by omega)
  have hstart : c.start = b.stop := by
    have hne : b ≠ c := by
      rintro rfl
      exact lt_irrefl _ hhigh
    have hdisjoint := h.tiles.disjoint b hb c hc hne
    have hpos := b.start_lt_stop
    omega
  have hlog := h.log_lt hsize hc
  rw [← hstart, h.header c hc]
  exact @ut2PowerUpLoop_two_pow c.log 0 65 (by omega) (by omega) (by omega)

theorem freeStep_merge (hsize : memAreaGetSize (pool.word area) = size) (hpos : 0 < size) (hused : pool.isFree area = false)
    (hnext : nextOk area size pool = true) (hbuddy : freeBuddy area size pool = some buddy) : freeStep (area + memAreaExtraSize) pool =
      if buddy < area then
        some (.inr (buddy + memAreaExtraSize,
          pool.merge (ut2Log size) buddy buddy fun word => memAreaSetFree (memAreaSetSize word (2 * size)) false))
      else
        some (.inr (area + memAreaExtraSize, pool.merge (ut2Log size) area buddy fun word => memAreaSetSize word (2 * size))) := by
  have hbit : memAreaGetFree (pool.word area) = false := hused
  simp only [freeStep, Nat.add_sub_cancel, hsize, hbit, hnext, hbuddy]
  exact if_neg (by simpa using hpos.ne')

theorem freeStep_give (hsize : memAreaGetSize (pool.word area) = size) (hpos : 0 < size) (hused : pool.isFree area = false)
    (hnext : nextOk area size pool = true) (hbuddy : freeBuddy area size pool = none) :
    freeStep (area + memAreaExtraSize) pool = some (.inl (pool.give (ut2Log size) area size)) := by
  have hbit : memAreaGetFree (pool.word area) = false := hused
  simp only [freeStep, Nat.add_sub_cancel, hsize, hbit, hnext, hbuddy]
  exact if_neg (by simpa using hpos.ne')

theorem Inv.freeStep_eq_inr (h : Inv pool bs fun _ => False) (hsize : pool.size < 2 ^ 63) (hb : b ∈ bs)
    (hused : pool.isFree b.start = false) (hbuddy : freeBuddy b.start b.size pool = some buddy) :
    ∃ pool' bs', ∃ c ∈ bs', freeStep (b.start + memAreaExtraSize) pool = some (.inr (c.start + memAreaExtraSize, pool')) ∧
      c.log = b.log + 1 ∧ c ∉ bs ∧ pool'.isFree c.start = false ∧ pool'.size = pool.size ∧ Inv pool' bs' (fun _ => False) ∧
        Keeps pool pool' bs bs' fun d => d = b := by
  obtain ⟨a, free, halog, ha, hanext, hadvd, hhalves, rfl, hfree⟩ := h.freeBuddy_eq_some hb hbuddy
  have hlog := h.log_lt hsize hb
  have hsmall := h.small b hb
  have hut : ut2Log b.size = a.log := (ut2Log_two_pow (by omega) (by omega)).trans halog.symm
  have hsize₂ : a.double.size = 2 * b.size := by
    rw [a.size_double, two_mul]
    unfold Block.size
    rw [halog]
  have heven : (2 * b.size) % 2 = 0 := Nat.mul_mod_right 2 _
  have hnew : a.double ∉ bs := fun hmem =>
    absurd (congrArg Block.log (h.tiles.eq_of_start hmem ha a.start_double)) (Nat.succ_ne_self _)
  rw [freeStep_merge (h.header b hb) b.size_pos hused (h.nextOk hsize hb) hbuddy, hut]
  rcases hhalves with ⟨rfl, rfl⟩ | ⟨rfl, rfl⟩
  · -- the buddy is the lower half: its bit is cleared with the new size
    obtain ⟨hinv, hbit, hkeeps⟩ := h.merge ha hanext hadvd (.inl ⟨rfl, rfl⟩) hfree hused
      (f := fun word => memAreaSetFree (memAreaSetSize word (2 * free.next.size)) false)
      (by rw [memAreaGetSize_setFree, memAreaGetSize_setSize _ heven, hsize₂]) (memAreaGetFree_setFree _ _)
    rw [if_pos (by rw [free.start_next]; exact free.start_lt_stop)]
    exact ⟨_, _, free.double, Tiles.mem_join.2 (.inl rfl), rfl, rfl, hnew, hbit, rfl, hinv, hkeeps⟩
  -- the buddy is the upper half: the area that is freed has its bit clear
  obtain ⟨hinv, hbit, hkeeps⟩ := h.merge ha hanext hadvd (.inr ⟨rfl, rfl⟩) hfree hused
    (f := fun word => memAreaSetSize word (2 * b.size))
    (by rw [memAreaGetSize_setSize _ heven, hsize₂]) (by rw [memAreaGetFree_setSize _ heven]; exact hused)
  rw [if_neg (by rw [b.start_next]; exact b.start_lt_stop.not_gt)]
  exact ⟨_, _, b.double, Tiles.mem_join.2 (.inl rfl), rfl, rfl, hnew, hbit, rfl, hinv, hkeeps⟩

theorem Inv.free (fuel : Nat) (h : Inv pool bs fun _ => False) (hsize : pool.size < 2 ^ 63) (hb : b ∈ bs)
    (hused : pool.isFree b.start = false) (hfuel : 63 ≤ b.log + fuel) :
    ∃ pool' bs', memAreaFree fuel (b.start + memAreaExtraSize) pool = some pool' ∧ pool'.size = pool.size ∧
      Inv pool' bs' (fun _ => False) ∧ Keeps pool pool' bs bs' (fun c => c = b) := by
  induction fuel generalizing pool bs b with
  | zero => exact absurd (h.log_lt hsize hb) (by omega)
  | succ fuel ih =>
    cases hbuddy : freeBuddy b.start b.size pool with
    | none =>
      have hlog := h.log_lt hsize hb
      have hsmall := h.small b hb
      obtain ⟨hnext, hprev⟩ := h.freeBuddy_eq_none hbuddy
      obtain ⟨hinv, hkeeps⟩ := h.give hb hused hnext hprev
      have hstep := freeStep_give (h.header b hb) b.size_pos hused (h.nextOk hsize hb) hbuddy
      rw [Block.size, ut2Log_two_pow (by omega) (by omega)] at hstep
      exact ⟨pool.give b.log b.start b.size, bs, by rw [memAreaFree, hstep]; rfl, rfl, hinv, hkeeps⟩
    | some buddy =>
      obtain ⟨pool₁, bs₁, c, hc, hstep, hclog, hnew, hcused, hsize₁, hinv₁, hkeeps₁⟩ := h.freeStep_eq_inr hsize hb hused hbuddy
      obtain ⟨pool₂, bs₂, hfree, hsize₂, hinv₂, hkeeps₂⟩ :=
        ih hinv₁ (hsize₁ ▸ hsize) hc hcused (by omega)
      refine ⟨pool₂, bs₂, by rw [memAreaFree, hstep]; exact hfree, hsize₂.trans hsize₁, hinv₂, ?_⟩
      intro d hd hdused hne
      obtain ⟨hd₁, hdused₁⟩ := hkeeps₁ d hd hdused hne
      exact hkeeps₂ d hd₁ hdused₁ fun heq => hnew (heq ▸ hd)

end Mysql51.Innodb.MemPool
