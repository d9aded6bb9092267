import Mathlib.Algebra.Order.BigOperators.Group.Finset
import Mathlib.Order.Interval.Finset.Nat
import Mathlib.Tactic.Ring

/-!
# Tilings by aligned blocks

Blocks of `2 ^ log` numbers that start at a multiple of their size, and sets of blocks that cover an initial segment of the
natural numbers without overlapping. Such a tiling stays one when a block is split in halves or two halves are joined, and
the other half of the block that a block of the tiling may be joined to begins with a block of the tiling.
-/

namespace Dyadic

structure Block where
  start : Nat
  log : Nat
deriving DecidableEq

namespace Block

variable (b : Block)

def size : Nat := 2 ^ b.log

def stop : Nat := b.start + b.size

def double : Block := ⟨b.start, b.log + 1⟩

def next : Block := ⟨b.start + b.size, b.log⟩

theorem size_pos : 0 < b.size := Nat.two_pow_pos b.log

theorem start_lt_stop : b.start < b.stop := Nat.lt_add_of_pos_right b.size_pos

theorem size_double : b.double.size = b.size + b.size := by
  unfold size double
  rw [pow_succ, mul_two]

theorem stop_double : b.double.stop = b.next.stop := by
  unfold stop
  rw [size_double]
  exact (Nat.add_assoc _ _ _).symm

theorem stop_eq : b.stop = b.start + b.size := rfl

theorem stop_next : b.next.stop = b.start + b.size + b.size := rfl

theorem start_next : b.next.start = b.start + b.size := rfl

theorem start_double : b.double.start = b.start := rfl

/-- An aligned block that is not the first half of an aligned block of twice its size is the second half of one. -/
theorem exists_eq_next {b : Block} (haligned : b.size ∣ b.start) (hodd : ¬ b.double.size ∣ b.start) :
    ∃ a : Block, a.next = b ∧ a.log = b.log ∧ a.start = b.start - b.size ∧ a.double.size ∣ a.start := by
  obtain ⟨k, hk⟩ := haligned
  rw [size_double] at hodd
  obtain ⟨m, rfl⟩ : ∃ m, k = 2 * m + 1 := by
    rcases Nat.even_or_odd' k with ⟨m, rfl | rfl⟩
    · refine absurd ⟨m, ?_⟩ hodd
      rw [hk]
      ring
    exact ⟨m, rfl⟩
  have hle : b.size ≤ b.start := by
    rw [hk]
    exact Nat.le_mul_of_pos_right _ (Nat.succ_pos _)
  refine ⟨⟨b.start - b.size, b.log⟩, ?_, rfl, rfl, ?_⟩
  · have hstart : b.start - b.size + 2 ^ b.log = b.start := Nat.sub_add_cancel hle
    show (⟨b.start - b.size + 2 ^ b.log, b.log⟩ : Block) = b
    rw [hstart]
  rw [size_double]
  refine ⟨m, ?_⟩
  show b.start - b.size = (b.size + b.size) * m
  rw [hk, Nat.sub_eq_iff_eq_add (by rw [← hk]; exact hle)]
  ring

end Block

/-- Aligned blocks that cover the numbers below `N`, each once. -/
structure Tiles (N : Nat) (bs : Finset Block) : Prop where
  aligned : ∀ b ∈ bs, b.size ∣ b.start
  within : ∀ b ∈ bs, b.stop ≤ N
  disjoint : ∀ b ∈ bs, ∀ c ∈ bs, b ≠ c → b.stop ≤ c.start ∨ c.stop ≤ b.start
  covers : ∀ x < N, ∃ b ∈ bs, b.start ≤ x ∧ x < b.stop

namespace Tiles

variable {N : Nat} {bs : Finset Block}

theorem eq_of_mem (h : Tiles N bs) {b c : Block} (hb : b ∈ bs) (hc : c ∈ bs) {x : Nat} (hxb : b.start ≤ x ∧ x < b.stop)
    (hxc : c.start ≤ x ∧ x < c.stop) : b = c := by
  by_contra hne
  have hdisjoint := h.disjoint b hb c hc hne
  omega

theorem eq_of_start (h : Tiles N bs) {b c : Block} (hb : b ∈ bs) (hc : c ∈ bs) (hstart : b.start = c.start) : b = c :=
  h.eq_of_mem hb hc ⟨le_rfl, b.start_lt_stop⟩ ⟨hstart.ge, hstart ▸ c.start_lt_stop⟩

theorem sum_size (h : Tiles N bs) : ∑ b ∈ bs, b.size = N := by
  have hunion : Finset.range N = bs.biUnion fun b => Finset.Ico b.start b.stop := by
    ext x
    rw [Finset.mem_range, Finset.mem_biUnion]
    constructor
    · intro hx
      obtain ⟨b, hb, hxb⟩ := h.covers x hx
      exact ⟨b, hb, Finset.mem_Ico.2 hxb⟩
    rintro ⟨b, hb, hxb⟩
    exact (Finset.mem_Ico.1 hxb).2.trans_le (h.within b hb)
  have hdisjoint : (bs : Set Block).PairwiseDisjoint fun b => Finset.Ico b.start b.stop := by
    intro b hb c hc hne
    rw [Function.onFun, Finset.disjoint_left]
    intro x hxb hxc
    exact hne (h.eq_of_mem hb hc (Finset.mem_Ico.1 hxb) (Finset.mem_Ico.1 hxc))
  have hcard := Finset.card_biUnion hdisjoint
  rw [← hunion, Finset.card_range] at hcard
  rw [hcard]
  refine Finset.sum_congr rfl fun b _ => ?_
  rw [Nat.card_Ico, Block.stop, Nat.add_sub_cancel_left]

theorem empty : Tiles 0 ∅ :=
  ⟨fun _ hb => absurd hb (Finset.notMem_empty _), fun _ hb => absurd hb (Finset.notMem_empty _),
    fun _ hb => absurd hb (Finset.notMem_empty _), fun _ hx => absurd hx (Nat.not_lt_zero _)⟩

theorem insert_last (h : Tiles N bs) {b : Block} (hstart : b.start = N) (haligned : b.size ∣ b.start) :
    Tiles b.stop (insert b bs) := by
  have hlt := b.start_lt_stop
  refine ⟨fun c hc => ?_, fun c hc => ?_, fun c hc d hd hne => ?_, fun x hx => ?_⟩
  · rcases Finset.mem_insert.1 hc with rfl | hc
    · exact haligned
    · exact h.aligned c hc
  · rcases Finset.mem_insert.1 hc with rfl | hc
    · exact le_rfl
    have hwithin := h.within c hc
    omega
  · rcases Finset.mem_insert.1 hc with rfl | hc' <;> rcases Finset.mem_insert.1 hd with rfl | hd'
    · exact absurd rfl hne
    · exact .inr (hstart ▸ h.within d hd')
    · exact .inl (hstart ▸ h.within c hc')
    exact h.disjoint c hc' d hd' hne
  by_cases hN : x < N
  · obtain ⟨c, hc, hxc⟩ := h.covers x hN
    exact ⟨c, Finset.mem_insert_of_mem hc, hxc⟩
  exact ⟨b, Finset.mem_insert_self b bs, by omega, hx⟩

def join (bs : Finset Block) (b : Block) : Finset Block := insert b.double ((bs.erase b).erase b.next)

def split (bs : Finset Block) (b : Block) : Finset Block := insert b (insert b.next (bs.erase b.double))

theorem mem_join {b c : Block} : c ∈ join bs b ↔ c = b.double ∨ c ≠ b.next ∧ c ≠ b ∧ c ∈ bs := by
  rw [join, Finset.mem_insert, Finset.mem_erase, Finset.mem_erase]

theorem mem_split {b c : Block} : c ∈ split bs b ↔ c = b ∨ c = b.next ∨ c ≠ b.double ∧ c ∈ bs := by
  rw [split, Finset.mem_insert, Finset.mem_insert, Finset.mem_erase]

theorem joins (h : Tiles N bs) {b : Block} (hb : b ∈ bs) (hnext : b.next ∈ bs) (hstart : b.double.size ∣ b.start) :
    Tiles N (join bs b) := by
  refine ⟨fun c hc => ?_, fun c hc => ?_, fun c hc d hd hne => ?_, fun x hx => ?_⟩
  · rcases mem_join.1 hc with rfl | ⟨-, -, hc⟩
    · exact hstart
    · exact h.aligned c hc
  · rcases mem_join.1 hc with rfl | ⟨-, -, hc⟩
    · rw [Block.stop_double]
      exact h.within _ hnext
    exact h.within c hc
  · -- another block is outside of both halves
    have hout : ∀ c ∈ bs, c ≠ b → c ≠ b.next → c.stop ≤ b.double.start ∨ b.double.stop ≤ c.start := by
      intro c hc hcb hcn
      have hfirst := h.disjoint c hc b hb hcb
      have hsecond := h.disjoint c hc b.next hnext hcn
      have hlt := c.start_lt_stop
      rw [b.stop_next, b.start_next] at hsecond
      rw [b.stop_eq] at hfirst
      rw [b.stop_double, b.stop_next, b.start_double]
      omega
    rcases mem_join.1 hc with rfl | ⟨hcn, hcb, hc⟩ <;> rcases mem_join.1 hd with rfl | ⟨hdn, hdb, hd⟩
    · exact absurd rfl hne
    · exact (hout d hd hdb hdn).symm
    · exact hout c hc hcb hcn
    exact h.disjoint c hc d hd hne
  obtain ⟨c, hc, hxc⟩ := h.covers x hx
  by_cases hcb : c = b
  · subst hcb
    refine ⟨c.double, mem_join.2 (.inl rfl), hxc.1, ?_⟩
    rw [Block.stop_double]
    exact hxc.2.trans c.next.start_lt_stop
  by_cases hcn : c = b.next
  · subst hcn
    refine ⟨b.double, mem_join.2 (.inl rfl), (Nat.le_add_right _ _).trans hxc.1, ?_⟩
    rw [Block.stop_double]
    exact hxc.2
  exact ⟨c, mem_join.2 (.inr ⟨hcn, hcb, hc⟩), hxc⟩

theorem splits (h : Tiles N bs) {b : Block} (hb : b.double ∈ bs) : Tiles N (split bs b) := by
  have hsize := b.size_double
  have haligned : b.size ∣ b.start :=
    (Dvd.intro 2 (by rw [hsize, mul_two])).trans (h.aligned _ hb : b.double.size ∣ b.start)
  have hwithin := h.within _ hb
  have hstop := b.stop_double
  have hpos := b.size_pos
  -- another block is outside of both halves
  have hout : ∀ c ∈ bs, c ≠ b.double → c.stop ≤ b.start ∨ b.next.stop ≤ c.start := by
    intro c hc hne
    rw [← hstop]
    exact h.disjoint c hc _ hb hne
  refine ⟨fun c hc => ?_, fun c hc => ?_, fun c hc d hd hne => ?_, fun x hx => ?_⟩
  · rcases mem_split.1 hc with rfl | rfl | ⟨-, hc⟩
    · exact haligned
    · exact Nat.dvd_add haligned (dvd_refl _)
    exact h.aligned c hc
  · rcases mem_split.1 hc with rfl | rfl | ⟨-, hc⟩
    · rw [hstop, c.stop_next] at hwithin
      rw [c.stop_eq]
      omega
    · rwa [hstop] at hwithin
    exact h.within c hc
  · have hhalves : b.stop ≤ b.next.start := le_rfl
    rw [Block.stop_next] at hout
    have hnext : b.next.start = b.start + b.size := rfl
    have hnstop := b.stop_next
    have hbstop : b.stop = b.start + b.size := rfl
    rcases mem_split.1 hc with hcb | hcb | ⟨hcb, hc'⟩ <;> rcases mem_split.1 hd with hdb | hdb | ⟨hdb, hd'⟩
    · exact absurd (hcb.trans hdb.symm) hne
    · rw [hcb, hdb]
      exact .inl hhalves
    · have hd'' := hout d hd' hdb
      rw [hcb]
      omega
    · rw [hcb, hdb]
      exact .inr hhalves
    · exact absurd (hcb.trans hdb.symm) hne
    · have hd'' := hout d hd' hdb
      rw [hcb]
      omega
    · have hc'' := hout c hc' hcb
      rw [hdb]
      omega
    · have hc'' := hout c hc' hcb
      rw [hdb]
      omega
    exact h.disjoint c hc' d hd' hne
  obtain ⟨c, hc, hxc⟩ := h.covers x hx
  by_cases hcb : c = b.double
  · subst hcb
    rw [hstop] at hxc
    by_cases hlow : x < b.stop
    · exact ⟨b, mem_split.2 (.inl rfl), hxc.1, hlow⟩
    · exact ⟨b.next, mem_split.2 (.inr (.inl rfl)), Nat.le_of_not_lt hlow, hxc.2⟩
  exact ⟨c, mem_split.2 (.inr (.inr ⟨hcb, hc⟩)), hxc⟩

/-- Behind the first half of an aligned block there is a block of the tiling, not larger than the half. -/
theorem exists_next (h : Tiles N bs) {b : Block} (hb : b ∈ bs) (hstart : b.double.size ∣ b.start) (hlt : b.next.start < N) :
    ∃ c ∈ bs, c.start = b.next.start ∧ c.log ≤ b.log := by
  obtain ⟨c, hc, hle, hlt'⟩ := h.covers _ hlt
  have hne : b ≠ c := by
    rintro rfl
    exact absurd hlt' (lt_irrefl _)
  have hstart' : c.start = b.next.start := by
    have hdisjoint := h.disjoint b hb c hc hne
    have hpos := b.size_pos
    rw [b.start_next] at hle hlt' ⊢
    rw [b.stop_eq] at hdisjoint
    omega
  refine ⟨c, hc, hstart', ?_⟩
  by_contra hlog
  have hdvd : b.double.size ∣ b.start + b.size := by
    rw [← b.start_next, ← hstart']
    exact (pow_dvd_pow 2 (Nat.lt_of_not_le hlog)).trans (h.aligned c hc)
  have hdvd' := b.size_double ▸ (Nat.dvd_add_right hstart).1 hdvd
  have hle' := Nat.le_of_dvd b.size_pos hdvd'
  have hpos := b.size_pos
  omega

/-- Before the second half of an aligned block there is a block of the tiling at the start of the first half, not larger than
the half. -/
theorem exists_prev (h : Tiles N bs) {b : Block} (hb : b.next ∈ bs) (hstart : b.double.size ∣ b.start) :
    ∃ c ∈ bs, c.start = b.start ∧ c.log ≤ b.log := by
  have hwithin := h.within _ hb
  have hpos := b.size_pos
  obtain ⟨c, hc, hle, hlt⟩ := h.covers b.start (by rw [b.stop_next] at hwithin; omega)
  have hne : b.next ≠ c := by
    rintro rfl
    rw [b.start_next] at hle
    omega
  have hstop : c.stop ≤ b.start + b.size := by
    have hdisjoint := h.disjoint _ hb c hc hne
    rw [b.stop_next, b.start_next] at hdisjoint
    omega
  have hlog : c.log ≤ b.log := by
    by_contra hlog
    -- an aligned block of at least the double size would end at an aligned number
    have hdvd : b.double.size ∣ c.stop := by
      refine Nat.dvd_add ?_ (pow_dvd_pow 2 (Nat.lt_of_not_le hlog))
      exact (pow_dvd_pow 2 (Nat.lt_of_not_le hlog)).trans (h.aligned c hc)
    have hdvd' := Nat.dvd_sub hdvd hstart
    have hle' := Nat.le_of_dvd (by omega) hdvd'
    rw [b.size_double] at hle'
    omega
  refine ⟨c, hc, ?_, hlog⟩
  have hdvd : c.size ∣ b.start - c.start := by
    have hhalf : b.size ∣ b.start := (Dvd.intro 2 (by rw [b.size_double, mul_two])).trans hstart
    exact Nat.dvd_sub ((pow_dvd_pow 2 hlog).trans hhalf) (h.aligned c hc)
  by_contra hne'
  have hle' := Nat.le_of_dvd (by omega) hdvd
  rw [c.stop_eq] at hlt
  omega

end Tiles

end Dyadic
