import Mysql51.Innodb.PoolSteps

/-!
# Creating and validating

`mem_pool_create` cuts the pool into areas of falling sizes and leaves what is too small for one. It leaves nothing exactly when
the size of the pool is a multiple of 64, and then the buddy invariant holds.
-/

namespace Mysql51.Innodb.MemPool

open Dyadic Function List

variable {pool : Pool} {bs : Finset Block}

/-! ### Validating -/

section

variable (h : Inv pool bs fun _ => False)
include h

theorem Inv.freeList_length (i : Nat) :
    (pool.freeList i).length = (Finset.filter (fun b => b.log = i) {b ∈ bs | pool.isFree b.start = true}).card := by
  rw [← toFinset_card_of_nodup (h.nodup i)]
  refine Finset.card_bij (fun area _ => ⟨area, i⟩) (fun area harea => ?_) (fun a _ b _ heq => congrArg Block.start heq)
    (fun b hb => ?_)
  · obtain ⟨hmem, hfree⟩ := (h.mem i area).1 (mem_toFinset.1 harea)
    exact Finset.mem_filter.2 ⟨Finset.mem_filter.2 ⟨hmem, hfree⟩, rfl⟩
  obtain ⟨hfree, rfl⟩ := Finset.mem_filter.1 hb
  exact ⟨b.start, mem_toFinset.2 ((h.mem b.log b.start).2 (Finset.mem_filter.1 hfree)), rfl⟩

theorem Inv.freeBytes_eq (hsize : pool.size < 2 ^ 63) : freeBytes pool = ∑ b ∈ bs with pool.isFree b.start = true, b.size := by
  have hlog : ∀ b ∈ ({b ∈ bs | pool.isFree b.start = true} : Finset Block), b.log ∈ Finset.range 64 := fun b hb =>
    Finset.mem_range.2 ((h.log_lt hsize (Finset.mem_filter.1 hb).1).trans (by omega))
  rw [← Finset.sum_fiberwise_of_maps_to hlog, freeBytes]
  refine Finset.sum_congr rfl fun i _ => ?_
  rw [h.freeList_length i, ut2Exp_eq]
  exact (Finset.sum_const_nat fun b hb => by rw [Block.size, (Finset.mem_filter.1 hb).2]).symm

theorem Inv.freeBytes_add_reserved (hsize : pool.size < 2 ^ 63) : freeBytes pool + pool.reserved = pool.size := by
  have hnot : ∀ b : Block, pool.isFree b.start = false ↔ ¬ pool.isFree b.start = true := fun b => by rw [Bool.not_eq_true]
  rw [h.freeBytes_eq hsize, h.reserved, Finset.filter_congr fun b _ => hnot b, Finset.sum_filter_add_sum_filter_not,
    h.tiles.sum_size]

theorem Inv.freeBuddy_free {b : Block} (hb : b ∈ bs) (hfree : pool.isFree b.start = true) :
    freeBuddy b.start b.size pool = none := by
  by_contra hne
  obtain ⟨buddy, hbuddy⟩ := Option.ne_none_iff_exists'.1 hne
  obtain ⟨a, c, -, ha, hanext, hadvd, hhalves, -, hcfree⟩ := h.freeBuddy_eq_some hb hbuddy
  rcases hhalves with ⟨rfl, rfl⟩ | ⟨rfl, rfl⟩
  · exact h.apart c ha hanext hadvd id ⟨hcfree, hfree⟩
  · exact h.apart b ha hanext hadvd id ⟨hfree, hcfree⟩

theorem Inv.validateList (i : Nat) : validateList i pool (pool.freeList i) = true := by
  refine all_eq_true.2 fun area harea => ?_
  obtain ⟨hmem, hfree⟩ := (h.mem i area).1 harea
  have hbit : memAreaGetFree (pool.word area) = true := hfree
  have hheader : memAreaGetSize (pool.word area) = ut2Exp i := (h.header _ hmem).trans (ut2Exp_eq i).symm
  have hbuddy := h.freeBuddy_free hmem hfree
  rw [Block.size, ← ut2Exp_eq, freeBuddy, Option.filter_eq_none_iff] at hbuddy
  rw [hbit, hheader, Bool.true_and, decide_eq_true rfl, Bool.true_and, Option.all_eq_true]
  intro buddy hget
  have hnot := hbuddy buddy hget
  rw [Bool.or_eq_true, Bool.not_eq_true', decide_eq_true_iff]
  simpa [imp_iff_not_or] using hnot

theorem Inv.memPoolValidate (hsize : pool.size < 2 ^ 63) : memPoolValidate pool = true := by
  rw [MemPool.memPoolValidate, Bool.and_eq_true, decide_eq_true_iff]
  exact ⟨all_eq_true.2 fun i _ => h.validateList i, h.freeBytes_add_reserved hsize⟩

end

/-! ### Creating -/

theorem createLog_spec {rest : Nat} (hmin : memAreaMinSize ≤ rest) (hlt : rest < 2 ^ 63) :
    2 ^ createLog rest ≤ rest ∧ rest < 2 ^ (createLog rest + 1) ∧ 5 ≤ createLog rest := by
  have htwo : 2 ≤ rest := (by decide : 2 ≤ memAreaMinSize).trans hmin
  have hupper := lt_pow_ut2Log (n := rest) (by omega)
  have hlower := pow_ut2Log_lt (n := rest) (by omega) htwo
  have hpos := ut2Log_pos rest
  have hlog : 2 ^ createLog rest ≤ rest ∧ rest < 2 ^ (createLog rest + 1) := by
    rw [createLog, ut2Exp_eq]
    split_ifs with hgt
    · rw [Nat.sub_add_cancel hpos]
      exact ⟨hlower.le, hgt⟩
    rw [pow_succ]
    omega
  refine ⟨hlog.1, hlog.2, ?_⟩
  have hpow : 2 ^ 5 < 2 ^ (createLog rest + 1) := (by decide : 2 ^ 5 < memAreaMinSize).trans_le (hmin.trans hlog.2.le)
  have hlog' := (Nat.pow_lt_pow_iff_right (by omega)).1 hpow
  omega

/-- The bytes that the loop of `mem_pool_create` leaves of the last `rest` bytes of a pool. -/
def createRest : Nat → Nat → Nat
  | 0, rest => rest
  | fuel + 1, rest => if rest ≥ memAreaMinSize then createRest fuel (rest - ut2Exp (createLog rest)) else rest

theorem createRest_eq_zero {fuel rest : Nat} (hdvd : 16 ∣ rest) (hlt : rest < 2 ^ 63) (hzero : createRest fuel rest = 0) :
    64 ∣ rest := by
  induction fuel generalizing rest with
  | zero => exact ⟨0, hzero⟩
  | succ fuel ih =>
    rw [createRest, ut2Exp_eq] at hzero
    split_ifs at hzero with hmin
    · obtain ⟨hle, hgt, hlog⟩ := createLog_spec hmin hlt
      have hrest : 64 ∣ rest - 2 ^ createLog rest := by
        have hsixteen : 16 ∣ 2 ^ createLog rest := pow_dvd_pow 2 (m := 4) (by omega)
        exact ih (Nat.dvd_sub hdvd hsixteen) (by omega) hzero
      rcases Nat.eq_or_lt_of_le hlog with hfive | hsix
      · -- of 48 bytes an area of 32 is made, and 16 are left
        have hmin' : 48 ≤ rest := hmin
        rw [← hfive] at hgt hrest
        omega
      have hpow : 64 ∣ 2 ^ createLog rest := pow_dvd_pow 2 (m := 6) (by omega)
      have hsum := Nat.dvd_add hrest hpow
      rwa [Nat.sub_add_cancel hle] at hsum
    exact ⟨0, hzero⟩

theorem freeList_carve (i used : Nat) : (pool.carve i used).freeList i = used :: pool.freeList i := update_self _ _ _

theorem freeList_carve_of_ne {i j : Nat} (used : Nat) (hj : j ≠ i) : (pool.carve i used).freeList j = pool.freeList j :=
  update_of_ne hj _ _

theorem mem_freeList_carve {i used j area : Nat} :
    area ∈ (pool.carve i used).freeList j ↔ (⟨area, j⟩ : Block) = ⟨used, i⟩ ∨ area ∈ pool.freeList j := by
  rw [Block.mk.injEq]
  by_cases hj : j = i
  · subst hj
    rw [freeList_carve, mem_cons, eq_self, and_true]
  rw [freeList_carve_of_ne used hj, or_iff_right fun h => hj h.2]

theorem freeBytes_carve {i used : Nat} (hi : i < 64) : freeBytes (pool.carve i used) = freeBytes pool + 2 ^ i := by
  have hother : ∀ j ∈ (Finset.range 64).erase i,
      ((pool.carve i used).freeList j).length * ut2Exp j = (pool.freeList j).length * ut2Exp j := by
    intro j hj
    rw [freeList_carve_of_ne used (Finset.ne_of_mem_erase hj)]
  have hmem := Finset.mem_range.2 hi
  rw [freeBytes, freeBytes, ← Finset.add_sum_erase _ _ hmem, ← Finset.add_sum_erase _ _ hmem, Finset.sum_congr rfl hother,
    freeList_carve, length_cons, Nat.succ_mul, ut2Exp_eq]
  omega

theorem freeBytes_createLoop {fuel used : Nat} (hlt : pool.size < 2 ^ 63) :
    freeBytes (createLoop fuel used pool) + createRest fuel (pool.size - used) = freeBytes pool + (pool.size - used) := by
  induction fuel generalizing used pool with
  | zero => rfl
  | succ fuel ih =>
    simp only [createLoop, createRest]
    split_ifs with hmin
    · obtain ⟨hle, -, -⟩ := createLog_spec hmin (by omega)
      have hlog : createLog (pool.size - used) < 63 :=
        (Nat.pow_lt_pow_iff_right (by omega)).1 (hle.trans_lt (by omega : pool.size - used < 2 ^ 63))
      have hstep := @ih (pool.carve (createLog (pool.size - used)) used) (used + ut2Exp (createLog (pool.size - used))) hlt
      rw [freeBytes_carve (by omega)] at hstep
      have hsize : (pool.carve (createLog (pool.size - used)) used).size = pool.size := rfl
      rw [hsize, Nat.sub_add_eq] at hstep
      rw [hstep, ut2Exp_eq, Nat.add_assoc, Nat.add_sub_cancel' hle]
    rfl

theorem createLoop_frame (fuel used : Nat) :
    (createLoop fuel used pool).size = pool.size ∧ (createLoop fuel used pool).reserved = pool.reserved := by
  induction fuel generalizing used pool with
  | zero => exact ⟨rfl, rfl⟩
  | succ fuel ih =>
    simp only [createLoop]
    split_ifs with hmin
    · exact ih _
    · exact ⟨rfl, rfl⟩

/-- An area at the end of a smaller pool, of a size that none of its areas has, keeps the buddy invariant. -/
theorem Inv.carve {i used : Nat} (h : Inv { pool with size := used } bs fun _ => False) (hi : 6 ≤ i) (hdvd : 2 ^ i ∣ used)
    (hlogs : ∀ b ∈ bs, b.log ≠ i) :
    Inv { pool.carve i used with size := used + 2 ^ i } (insert ⟨used, i⟩ bs) fun _ => False := by
  have hne : ∀ b ∈ bs, b.start ≠ used := fun b hb => (b.start_lt_stop.trans_le (h.tiles.within b hb)).ne
  have hnew : (pool.carve i used).word used = memAreaSetFree (memAreaSetSize (pool.word used) (ut2Exp i)) true :=
    update_self _ _ _
  have hword : ∀ x, x ≠ used → (pool.carve i used).word x = pool.word x := fun x hx => update_of_ne hx _ _
  have hnewbit : (pool.carve i used).isFree used = true := by rw [Pool.isFree, hnew, memAreaGetFree_setFree]
  have hbit : ∀ x, x ≠ used → (pool.carve i used).isFree x = pool.isFree x := fun x hx => congrArg memAreaGetFree (hword x hx)
  have hnotin : ⟨used, i⟩ ∉ bs := fun hmem => hne _ hmem rfl
  have hnotlist : used ∉ pool.freeList i := fun hmem => hnotin ((h.mem i used).1 hmem).1
  have htiles : Tiles (used + 2 ^ i) (insert ⟨used, i⟩ bs) := h.tiles.insert_last (b := ⟨used, i⟩) rfl hdvd
  refine ⟨htiles, fun b hb => ?_, fun b hb => ?_, fun j => ?_, fun j area => ?_, fun b hb hnext _ _ => ?_, ?_⟩
  · rcases Finset.mem_insert.1 hb with rfl | hb'
    · exact hi
    · exact h.small b hb'
  · rcases Finset.mem_insert.1 hb with rfl | hb'
    · show memAreaGetSize ((pool.carve i used).word used) = 2 ^ i
      rw [hnew, memAreaGetSize_setFree, ut2Exp_eq, memAreaGetSize_setSize _ (even_two_pow hi)]
    exact (congrArg memAreaGetSize (hword _ (hne b hb'))).trans (h.header b hb')
  · by_cases hj : j = i
    · subst hj
      rw [freeList_carve]
      exact nodup_cons.2 ⟨hnotlist, h.nodup j⟩
    rw [freeList_carve_of_ne used hj]
    exact h.nodup j
  · show area ∈ (pool.carve i used).freeList j ↔ _ ∧ (pool.carve i used).isFree area = true
    rw [mem_freeList_carve, Finset.mem_insert, or_and_right]
    refine or_congr (iff_self_and.2 fun heq => ?_) ((h.mem j area).trans (and_congr_right fun hmem => ?_))
    · have harea : area = used := congrArg Block.start heq
      rw [harea]
      exact hnewbit
    rw [hbit area (hne _ hmem)]
    exact Iff.rfl
  · rintro ⟨hfree, hnextfree⟩
    rcases Finset.mem_insert.1 hb with rfl | hb' <;> rcases Finset.mem_insert.1 hnext with heq | hnext'
    · exact absurd (congrArg Block.start heq) (Nat.lt_add_of_pos_right (Nat.two_pow_pos i)).ne'
    · exact hlogs _ hnext' rfl
    · exact hlogs b hb' (congrArg Block.log heq)
    have hdvd' : b.double.size ∣ b.start := by assumption
    refine h.apart b hb' hnext' hdvd' id ⟨?_, ?_⟩
    · exact (hbit _ (hne b hb')).symm.trans hfree
    · exact (hbit _ (hne _ hnext')).symm.trans hnextfree
  have hset : ({b ∈ insert ⟨used, i⟩ bs | (pool.carve i used).isFree b.start = false} : Finset Block) =
      {b ∈ bs | pool.isFree b.start = false} := by
    rw [Finset.filter_insert, if_neg (by simp [hnewbit])]
    exact Finset.filter_congr fun b hb => by rw [hbit _ (hne b hb)]
  exact h.reserved.trans (Finset.sum_congr hset.symm fun _ _ => rfl)

theorem createLoop_inv {fuel used : Nat} (h : Inv { pool with size := used } bs fun _ => False) (hle : used ≤ pool.size)
    (hsize : pool.size < 2 ^ 63) (hlt : pool.size - used < 2 ^ fuel) (hdvd : 64 ∣ pool.size - used)
    (hlogs : ∀ b ∈ bs, pool.size - used < 2 ^ b.log) (haligned : ∀ j, 2 ^ j ≤ pool.size - used → 2 ^ j ∣ used) :
    ∃ bs', Inv (createLoop fuel used pool) bs' fun _ => False := by
  induction fuel generalizing used pool bs with
  | zero =>
    have hused : used = pool.size := by omega
    subst hused
    exact ⟨bs, h⟩
  | succ fuel ih =>
    simp only [createLoop]
    split_ifs with hmin
    · obtain ⟨hpow, hupper, -⟩ := createLog_spec hmin (by omega)
      generalize createLog (pool.size - used) = i at hpow hupper
      have hi : 6 ≤ i := by
        have hsixtyfour : 2 ^ 6 ≤ pool.size - used := Nat.le_of_dvd ((by decide : 0 < memAreaMinSize).trans_le hmin) hdvd
        exact Nat.le_of_lt_succ ((Nat.pow_lt_pow_iff_right (by omega)).1 (hsixtyfour.trans_lt hupper))
      have hifuel : i ≤ fuel := Nat.le_of_lt_succ ((Nat.pow_lt_pow_iff_right (by omega)).1 (hpow.trans_lt hlt))
      have hcarve := h.carve hi (haligned i hpow) fun b hb heq => absurd (hlogs b hb) (by rw [heq]; omega)
      rw [← ut2Exp_eq] at hcarve
      rw [pow_succ] at hupper
      have hnewrest : (pool.carve i used).size - (used + ut2Exp i) = pool.size - used - 2 ^ i := by
        rw [ut2Exp_eq]
        exact Nat.sub_add_eq _ _ _
      have hless : (pool.carve i used).size - (used + ut2Exp i) < 2 ^ i := by omega
      have hnewdvd : 64 ∣ 2 ^ i := pow_dvd_pow 2 (m := 6) hi
      refine ih hcarve ?_ hsize ?_ ?_ ?_ ?_
      · rw [ut2Exp_eq]
        show used + 2 ^ i ≤ pool.size
        omega
      · exact hless.trans_le (Nat.pow_le_pow_right (by omega) hifuel)
      · rw [hnewrest]
        exact Nat.dvd_sub hdvd hnewdvd
      · intro b hb
        rcases Finset.mem_insert.1 hb with rfl | hb'
        · exact hless
        have hlog := hlogs b hb'
        omega
      intro j hj
      have hji : j ≤ i := ((Nat.pow_lt_pow_iff_right (by omega)).1 (hj.trans_lt hless)).le
      rw [ut2Exp_eq]
      exact Nat.dvd_add (haligned j (by omega)) (pow_dvd_pow 2 hji)
    have hmin' : ¬ 48 ≤ pool.size - used := hmin
    have hused : used = pool.size := by omega
    subst hused
    exact ⟨bs, h⟩

/-- `mem_pool_create` establishes the buddy invariant in a pool of a multiple of 64 bytes. -/
theorem emptyPool_inv {size : Nat} (hlt : size < 2 ^ 63) (hdvd : 64 ∣ size) (buf : Nat → Nat) :
    ∃ bs, Inv (createLoop 64 0 (emptyPool size buf)) bs fun _ => False := by
  have hempty : ∀ b : Block, b ∉ (∅ : Finset Block) := Finset.notMem_empty
  have hstart : Inv { emptyPool size buf with size := 0 } ∅ fun _ => False :=
    ⟨Tiles.empty, fun b hb => absurd hb (hempty b), fun b hb => absurd hb (hempty b), fun _ => nodup_nil,
      fun _ _ => ⟨fun hmem => absurd hmem not_mem_nil, fun hmem => absurd hmem.1 (hempty _)⟩,
      fun b hb => absurd hb (hempty b), rfl⟩
  exact createLoop_inv hstart (Nat.zero_le size) hlt (show size - 0 < 2 ^ 64 by omega) hdvd (fun b hb => absurd hb (hempty b))
    fun _ _ => Nat.dvd_zero _

theorem dvd_of_freeBytes_emptyPool {size : Nat} (hlt : size < 2 ^ 63) (hdvd : memAreaMinSize ∣ size) {buf : Nat → Nat}
    (htotal : freeBytes (createLoop 64 0 (emptyPool size buf)) + (createLoop 64 0 (emptyPool size buf)).reserved = size) :
    64 ∣ size := by
  have hbytes := @freeBytes_createLoop (emptyPool size buf) 64 0 hlt
  have hnone : freeBytes (emptyPool size buf) = 0 := Finset.sum_eq_zero fun i _ => zero_mul _
  have hreserved : (emptyPool size buf).reserved = 0 := rfl
  have hsize : (emptyPool size buf).size = size := rfl
  rw [(createLoop_frame 64 0).2, hreserved, add_zero] at htotal
  rw [htotal, hnone, hsize, Nat.zero_add, Nat.sub_zero, Nat.add_eq_left] at hbytes
  exact createRest_eq_zero ((by decide : 16 ∣ memAreaMinSize).trans hdvd) hlt hbytes

end Mysql51.Innodb.MemPool
