import Mysql51.Innodb.PoolCreate
import Mysql51.Lib.Run

/-!
# Runs of the memory pool

The areas of live allocations are in use and apart, so that what their users write leaves all headers as they are.
-/

namespace Mysql51.Innodb.MemPool

open Dyadic Run List

/-- What is promised of the pool: it is tiled by areas, the free lists hold the free ones, buddies are not both free, and all
bytes are counted; the bytes of live allocations are apart, as many as were asked for, and no part of a header. -/
structure Buddied (st : State) (bs : Finset Block) : Prop where
  tiles : Tiles st.pool.size bs
  header : ∀ b ∈ bs, memAreaGetSize (st.pool.word b.start) = b.size
  freeList : ∀ i area, area ∈ st.pool.freeList i ↔ ⟨area, i⟩ ∈ bs ∧ st.pool.isFree area = true
  nodup : ∀ i, (st.pool.freeList i).Nodup
  apart : ∀ b ∈ bs, b.next ∈ bs → b.double.size ∣ b.start →
    ¬ (st.pool.isFree b.start = true ∧ st.pool.isFree b.next.start = true)
  total : freeBytes st.pool + st.pool.reserved = st.pool.size
  valid : memPoolValidate st.pool = true
  area : ∀ a ∈ st.live, ∃ b ∈ bs, st.pool.isFree b.start = false ∧ a.1 = b.start + memAreaExtraSize
  large : ∀ a ∈ st.live, a.1 + a.2 ≤ areaEnd st.pool a.1
  disjoint : st.live.Pairwise fun a b => areaEnd st.pool a.1 ≤ b.1 ∨ areaEnd st.pool b.1 ≤ a.1
  clear : ∀ a ∈ st.live, ∀ b ∈ bs, b.start + memAreaExtraSize ≤ a.1 ∨ areaEnd st.pool a.1 ≤ b.start

def Has (pool : Pool) (bs : Finset Block) (a : Nat × Nat) (b : Block) : Prop :=
  b ∈ bs ∧ pool.isFree b.start = false ∧ a.1 = b.start + memAreaExtraSize ∧ a.1 + a.2 ≤ b.stop

/-- The invariant of a run: different live allocations have different areas in use. -/
structure Good (size : Nat) (st : State) (bs : Finset Block) : Prop where
  inv : Inv st.pool bs fun _ => False
  size : st.pool.size = size
  has : ∀ a ∈ st.live, ∃ b, Has st.pool bs a b
  nodup : (st.live.map Prod.fst).Nodup

variable {pool pool' : Pool} {bs bs' : Finset Block}

variable {b : Block} {a : Nat × Nat} {size : Nat} {st : State}

theorem Inv.areaEnd_eq (h : Inv pool bs fun _ => False) {ptr : Nat} (hb : b ∈ bs) (hptr : ptr = b.start + memAreaExtraSize) :
    areaEnd pool ptr = b.stop := by
  rw [areaEnd, areaSize, hptr, Nat.add_sub_cancel, h.header b hb, b.stop_eq]

theorem Inv.extraSize_le (h : Inv pool bs fun _ => False) (hb : b ∈ bs) : b.start + memAreaExtraSize ≤ b.stop := by
  have hpow : 2 ^ 6 ≤ b.size := Nat.pow_le_pow_right (by omega) (h.small b hb)
  exact Nat.add_le_add_left ((by decide : memAreaExtraSize ≤ 2 ^ 6).trans hpow) _

theorem Has.keeps {except : Block → Prop} (hkeeps : Keeps pool pool' bs bs' except) (hhas : Has pool bs a b) (hnot : ¬ except b) :
    Has pool' bs' a b := by
  obtain ⟨hb, hused, hrest⟩ := hhas
  obtain ⟨hb', hused'⟩ := hkeeps b hb hused hnot
  exact ⟨hb', hused', hrest⟩

theorem Good.buddied (h : Good size st bs) (hsize : size < 2 ^ 63) : Buddied st bs := by
  have hlt : st.pool.size < 2 ^ 63 := h.size.symm ▸ hsize
  refine ⟨h.inv.tiles, h.inv.header, h.inv.mem, h.inv.nodup, fun b hb hnext hdvd => h.inv.apart b hb hnext hdvd id,
    h.inv.freeBytes_add_reserved hlt, h.inv.memPoolValidate hlt, fun a ha => ?_, fun a ha => ?_, ?_, fun a ha c hc => ?_⟩
  · obtain ⟨b, hb, hused, hptr, -⟩ := h.has a ha
    exact ⟨b, hb, hused, hptr⟩
  · obtain ⟨b, hhas⟩ := h.has a ha
    rw [h.inv.areaEnd_eq hhas.1 hhas.2.2.1]
    exact hhas.2.2.2
  · refine (pairwise_map.1 h.nodup).imp_of_mem fun {a c} ha hc hne => ?_
    obtain ⟨b, hb⟩ := h.has a ha
    obtain ⟨d, hd⟩ := h.has c hc
    have hbd : b ≠ d := by
      rintro rfl
      exact hne (hb.2.2.1.trans hd.2.2.1.symm)
    rw [h.inv.areaEnd_eq hb.1 hb.2.2.1, h.inv.areaEnd_eq hd.1 hd.2.2.1, hb.2.2.1, hd.2.2.1]
    have hdisjoint := h.inv.tiles.disjoint b hb.1 d hd.1 hbd
    omega
  obtain ⟨b, hb⟩ := h.has a ha
  rw [h.inv.areaEnd_eq hb.1 hb.2.2.1, hb.2.2.1]
  by_cases hbc : b = c
  · subst hbc
    exact .inl le_rfl
  rcases h.inv.tiles.disjoint b hb.1 c hc hbc with hafter | hbefore
  · exact .inr hafter
  · exact .inl ((h.inv.extraSize_le hc).trans (hbefore.trans (Nat.le_add_right _ _)))

/-! ### Steps -/

theorem Inv.word_writeArea (h : Inv pool bs fun _ => False) {c : Block} (hhas : Has pool bs a b) (hc : c ∈ bs) (buf : Nat → Nat) :
    (writeArea a.1 buf pool).word c.start = pool.word c.start := by
  refine if_neg ?_
  rw [h.areaEnd_eq hhas.1 hhas.2.2.1, hhas.2.2.1]
  rintro ⟨hlower, hupper⟩
  have hextra : memAreaExtraSize = 24 := rfl
  have hinside : b.start ≤ c.start ∧ c.start < b.stop := by omega
  have hbc := h.tiles.eq_of_mem hhas.1 hc hinside ⟨le_rfl, c.start_lt_stop⟩
  rw [hbc] at hlower
  omega

theorem Inv.writeArea (h : Inv pool bs fun _ => False) (hhas : Has pool bs a b) (buf : Nat → Nat) :
    Inv (writeArea a.1 buf pool) bs (fun _ => False) ∧ Keeps pool (writeArea a.1 buf pool) bs bs fun _ => False := by
  have hword : ∀ c ∈ bs, (MemPool.writeArea a.1 buf pool).word c.start = pool.word c.start := fun c hc =>
    h.word_writeArea hhas hc buf
  have hbit : ∀ c ∈ bs, (MemPool.writeArea a.1 buf pool).isFree c.start = pool.isFree c.start := fun c hc =>
    congrArg memAreaGetFree (hword c hc)
  refine ⟨⟨h.tiles, h.small, fun c hc => ?_, h.nodup, fun i area => ?_, fun c hc hnext hdvd _ => ?_, ?_⟩, fun c hc hused _ => ?_⟩
  · rw [hword c hc]
    exact h.header c hc
  · refine (h.mem i area).trans (and_congr_right fun harea => ?_)
    rw [← hbit _ harea]
  · rw [hbit c hc, hbit _ hnext]
    exact h.apart c hc hnext hdvd id
  · exact h.reserved.trans (Finset.sum_congr (Finset.filter_congr fun c hc => by rw [hbit c hc]) fun _ _ => rfl)
  exact ⟨hc, (hbit c hc).trans hused⟩

section

variable (h : Good size st bs)
include h

theorem Good.write (k : Nat) (buf : Nat → Nat) : ∃ st', step st (.write k buf) = some st' ∧ Good size st' bs := by
  simp only [step]
  cases hk : st.live[k]? with
  | none => exact ⟨st, rfl, h⟩
  | some a =>
    obtain ⟨b, hb⟩ := h.has a (mem_of_getElem? hk)
    obtain ⟨hinv, hkeeps⟩ := h.inv.writeArea hb buf
    refine ⟨_, rfl, hinv, h.size, fun c hc => ?_, h.nodup⟩
    obtain ⟨d, hd⟩ := h.has c hc
    exact ⟨d, hd.keeps hkeeps id⟩

theorem Good.free (hsize : size < 2 ^ 63) (k : Nat) : ∃ st' bs', step st (.free k) = some st' ∧ Good size st' bs' := by
  simp only [step]
  cases hk : st.live[k]? with
  | none => exact ⟨st, bs, rfl, h⟩
  | some a =>
    obtain ⟨b, hb⟩ := h.has a (mem_of_getElem? hk)
    obtain ⟨pool', bs', hfree, hsize', hinv, hkeeps⟩ :=
      h.inv.free 64 (h.size.symm ▸ hsize) hb.1 hb.2.1 (by omega)
    rw [← hb.2.2.1] at hfree
    dsimp only
    rw [hfree]
    refine ⟨_, bs', rfl, hinv, hsize'.trans h.size, fun c hc => ?_, h.nodup.sublist ((eraseIdx_sublist _ _).map _)⟩
    obtain ⟨d, hd⟩ := h.has c (mem_of_mem_eraseIdx hc)
    refine ⟨d, hd.keeps hkeeps ?_⟩
    rintro rfl
    -- the allocation at another index has another place
    obtain ⟨j, hj, hjk, rfl⟩ := mem_eraseIdx_iff_getElem.1 hc
    obtain ⟨hklt, rfl⟩ := List.getElem?_eq_some_iff.1 hk
    exact hjk ((h.nodup.of_map _).getElem_inj_iff.1
      (inj_on_of_nodup_map h.nodup (getElem_mem hj) (getElem_mem hklt) (hd.2.2.1.trans hb.2.2.1.symm)))

theorem Good.alloc {want : Nat} (hwant : want + memAreaExtraSize ≤ 2 ^ 63) (malloc : Bool) :
    step st (.alloc want malloc) = none ∧ malloc = false ∨
      ∃ st' bs', step st (.alloc want malloc) = some st' ∧ Good size st' bs' := by
  obtain ⟨hlog, hpow⟩ := allocLog_le hwant
  simp only [step]
  rcases h.inv.alloc hlog malloc with hsystem | ⟨ptr, pool', bs', b, halloc, hsize', hinv, hkeeps, hnew⟩
  · rw [hsystem]
    cases malloc with
    | false => exact .inl ⟨rfl, rfl⟩
    | true => exact .inr ⟨_, bs, rfl, h.inv, h.size, h.has, h.nodup⟩
  rw [halloc]
  refine .inr ⟨_, bs', rfl, hinv, hsize'.trans h.size, fun c hc => ?_, nodup_cons.2 ⟨fun hmem => ?_, h.nodup⟩⟩
  · rcases mem_cons.1 hc with rfl | hc'
    · refine ⟨b, hnew.mem, hnew.used, hnew.ptr, ?_⟩
      show ptr + want ≤ b.stop
      rw [hnew.ptr, b.stop_eq, Block.size, hnew.log]
      omega
    obtain ⟨d, hd⟩ := h.has c hc'
    exact ⟨d, hd.keeps hkeeps id⟩
  obtain ⟨c, hc, hptr⟩ := mem_map.1 hmem
  obtain ⟨d, hd⟩ := h.has c hc
  refine hnew.fresh d hd.1 hd.2.1 (hinv.tiles.eq_of_start (hd.keeps hkeeps id).1 hnew.mem ?_)
  have heq : d.start + memAreaExtraSize = b.start + memAreaExtraSize := hd.2.2.1.symm.trans (hptr.trans hnew.ptr)
  exact Nat.add_right_cancel heq

end

/-! ### Runs -/

/-- An allocation may be asked for if its area fits into the address space. -/
def Fits : Act → Prop
  | .alloc size _ => size + memAreaExtraSize ≤ 2 ^ 63
  | .free _ => True
  | .write _ _ => True

/-- A step that fits returns, unless the system has no memory, and keeps the invariant. -/
theorem Good.exists_step (h : Good size st bs) (hsize : size < 2 ^ 63) {act : Act} (hfits : Fits act) :
    (step st act = none ∧ ∃ want, act = .alloc want false) ∨ ∃ st' bs', step st act = some st' ∧ Good size st' bs' := by
  cases act with
  | alloc want malloc =>
    rcases h.alloc hfits malloc with ⟨hnone, rfl⟩ | hgood
    · exact .inl ⟨hnone, want, rfl⟩
    · exact .inr hgood
  | free k => exact .inr (h.free hsize k)
  | write k buf =>
    obtain ⟨st', hstep, hgood⟩ := h.write k buf
    exact .inr ⟨st', bs, hstep, hgood⟩

theorem Good.run (h : Good size st bs) (hsize : size < 2 ^ 63) {acts : List Act} (hfits : ∀ act ∈ acts, Fits act) :
    (∀ t, Passes step st acts t → ∃ bs, Buddied t bs) ∧ ((∀ want, .alloc want false ∉ acts) → (run step st acts).isSome) := by
  constructor
  · rintro t ⟨pre, hpre, hrun⟩
    obtain ⟨bs', hgood⟩ := invariant (P := fun st => ∃ bs, Good size st bs) (fun st act st' hact ⟨bs, hst⟩ hstep => by
      rcases hst.exists_step hsize (hfits act (hpre.subset hact)) with ⟨hnone, -⟩ | ⟨st'', bs', hstep', hst'⟩
      · cases hnone.symm.trans hstep
      cases hstep'.symm.trans hstep
      exact ⟨bs', hst'⟩) ⟨bs, h⟩ hrun
    exact ⟨bs', hgood.buddied hsize⟩
  · intro hsystem
    refine isSome_run (P := fun st => ∃ bs, Good size st bs) (fun st act hact ⟨bs, hst⟩ => ?_) ⟨bs, h⟩
    rcases hst.exists_step hsize (hfits act hact) with ⟨-, want, rfl⟩ | ⟨st', bs', hstep, hst'⟩
    · exact absurd hact (hsystem want)
    · exact ⟨st', hstep, bs', hst'⟩

/-- A new pool has the buddy invariant exactly when its size is a multiple of 64. Then it keeps it, as long as no allocation is
larger than the address space, and every step returns, unless the system has no memory for an allocation. -/
theorem buddied_run {size : Nat} (hbig : 10000 < size) (hlt : size < 2 ^ 63) (hdvd : memAreaMinSize ∣ size) (buf : Nat → Nat) :
    ∃ st, init size buf = some st ∧ ((∃ bs, Buddied st bs) ↔ 64 ∣ size) ∧ (64 ∣ size → ∀ acts : List Act,
      (∀ want malloc, .alloc want malloc ∈ acts → want + memAreaExtraSize ≤ 2 ^ 63) →
        (∀ t, Passes step st acts t → ∃ bs, Buddied t bs) ∧ ((∀ want, .alloc want false ∉ acts) → (run step st acts).isSome)) := by
  refine ⟨{ pool := createLoop 64 0 (emptyPool size buf), live := [] }, by rw [init, memPoolCreate, if_pos hbig]; rfl, ?_⟩
  have hsize : (createLoop 64 0 (emptyPool size buf)).size = size := (createLoop_frame 64 0).1
  have hgood (hmul : 64 ∣ size) : ∃ bs, Good size { pool := createLoop 64 0 (emptyPool size buf), live := [] } bs := by
    obtain ⟨bs, hinv⟩ := emptyPool_inv hlt hmul buf
    exact ⟨bs, hinv, hsize, fun a ha => absurd ha not_mem_nil, nodup_nil⟩
  refine ⟨⟨?_, fun hmul => ?_⟩, fun hmul acts hwant => ?_⟩
  · rintro ⟨bs, hbuddied⟩
    exact dvd_of_freeBytes_emptyPool hlt hdvd (hbuddied.total.trans hsize)
  · obtain ⟨bs, h⟩ := hgood hmul
    exact ⟨bs, h.buddied hlt⟩
  obtain ⟨bs, h⟩ := hgood hmul
  refine h.run hlt fun act hmem => ?_
  cases act with
  | alloc want malloc => exact hwant want malloc hmem
  | free k => trivial
  | write k buf => trivial

theorem buddied_run_twoAllocations : ∃ st, init (64 * 192) (fun _ => 0) = some st ∧
      (run step st [.alloc 100 true, .alloc 5000 true, .write 0 fun p => p, .free 1]).isSome ∧
        ∀ t, Passes step st [.alloc 100 true, .alloc 5000 true, .write 0 fun p => p, .free 1] t → ∃ bs, Buddied t bs := by
  obtain ⟨st, hinit, -, hrun⟩ := @buddied_run (64 * 192) (by decide) (by decide) (by decide) fun _ => 0
  obtain ⟨hbuddied, hsome⟩ := hrun (by decide) [.alloc 100 true, .alloc 5000 true, .write 0 fun p => p, .free 1]
    fun want malloc hmem => by
      have hwant : (want = 100 ∧ malloc = true) ∨ want = 5000 ∧ malloc = true := by simpa using hmem
      have hextra : memAreaExtraSize = 24 := rfl
      omega
  exact ⟨st, hinit, hsome (by simp), hbuddied⟩

/-- A pool of 209 times the least size of an area has 16 bytes that are in no area. -/
theorem not_buddied_create :
    memAreaMinSize ∣ 10032 ∧ ∃ st, init 10032 (fun _ => 0) = some st ∧ memPoolValidate st.pool = false ∧ ¬ ∃ bs, Buddied st bs := by
  have hfalse : memPoolValidate (createLoop 64 0 (emptyPool 10032 fun _ => 0)) = false := by decide +kernel
  refine ⟨by decide, _, rfl, hfalse, ?_⟩
  rintro ⟨bs, hbuddied⟩
  exact nomatch hfalse.symm.trans hbuddied.valid

end Mysql51.Innodb.MemPool
