import Mysql51.Cache.ChunkAlloc

/-!
# Chains of chunks

What `malloc`, `free`, `split` and `merge` do to the lists of chunks: `malloc` takes a part off the front of the free
list and hands it out reversed, `free` puts a chain back, `split` writes a byte string into a chain and `merge` reads it
back. Each comes with the chunks it leaves alone.
-/

namespace Mysql51.Cache

open Link Machine Function List

namespace CChunkAllocator

def next (a : CChunkAllocator) (i : Nat) : Option Nat := (a.chunkNodes i).next

theorem chunkNodes_modify_of_ne {a : CChunkAllocator} {i j : Nat} (hne : j ≠ i) (f : TChunkNode → TChunkNode) :
    (a.modify i f).chunkNodes j = a.chunkNodes j := update_of_ne hne _ _

@[simp] theorem chunkNodes_modify_self (a : CChunkAllocator) (i : Nat) (f : TChunkNode → TChunkNode) :
    (a.modify i f).chunkNodes i = f (a.chunkNodes i) := update_self _ _ _

theorem next_setNext (a : CChunkAllocator) (i : Nat) (v : Option Nat) : (a.setNext i v).next = update a.next i v := by
  funext j
  by_cases hj : j = i
  · subst hj
    simp [next, setNext]
  rw [next, setNext, chunkNodes_modify_of_ne hj, update_of_ne hj, next]

theorem data_setNext (a : CChunkAllocator) (i : Nat) (v : Option Nat) (j : Nat) :
    ((a.setNext i v).chunkNodes j).data = (a.chunkNodes j).data := by
  by_cases hj : j = i
  · subst hj
    simp [setNext]
  rw [setNext, chunkNodes_modify_of_ne hj]

theorem next_setData (a : CChunkAllocator) (i : Nat) (data : List UInt8) : (a.setData i data).next = a.next := by
  funext j
  by_cases hj : j = i
  · subst hj
    simp [next, setData]
  rw [next, setData, chunkNodes_modify_of_ne hj, next]

end CChunkAllocator

/-- `a'` differs from `a` in the links of the chunks `c` and in the header's free list. -/
structure LinkFrame (c : List Nat) (a a' : CChunkAllocator) : Prop where
  chunkTotal : a'.chunkTotal = a.chunkTotal
  chunkSize : a'.chunkSize = a.chunkSize
  node : ∀ i, i ∉ c → a'.chunkNodes i = a.chunkNodes i
  data : ∀ i, (a'.chunkNodes i).data = (a.chunkNodes i).data

namespace LinkFrame

variable {c c' : List Nat} {a a' a'' : CChunkAllocator}

theorem trans (h : LinkFrame c a a') (h' : LinkFrame c' a' a'') : LinkFrame (c ++ c') a a'' := by
  refine ⟨h'.chunkTotal.trans h.chunkTotal, h'.chunkSize.trans h.chunkSize, fun i hi => ?_, fun i => (h'.data i).trans (h.data i)⟩
  rw [mem_append, not_or] at hi
  rw [h'.node i hi.2, h.node i hi.1]

end LinkFrame

namespace CChunkAllocator

variable {a : CChunkAllocator}

theorem setNext_frame (a : CChunkAllocator) (i : Nat) (v : Option Nat) : LinkFrame [i] a (a.setNext i v) :=
  ⟨rfl, rfl, fun _ hj => chunkNodes_modify_of_ne (by simpa using hj) _, data_setNext a i v⟩

/-- The loop of `malloc` moves the front `l₁` of the free list, cell by cell, in front of the chain `acc`. -/
theorem mallocLoop_spec {l₁ l₂ : List Nat} : ∀ (a : CChunkAllocator) (head : Option Nat) (acc : List Nat),
    Chain a.next a.freeList (l₁ ++ l₂) → Chain a.next head acc → (∀ i ∈ acc, i ∉ l₁ ++ l₂) →
    ∃ a' head', mallocLoop l₁.length a head = some (a', head') ∧ Chain a'.next a'.freeList l₂ ∧
      Chain a'.next head' (l₁.reverse ++ acc) ∧ LinkFrame l₁ a a' ∧ a'.freeTotal = a.freeTotal := by
  induction l₁ with
  | nil =>
    intro a head acc hfree hacc _
    exact ⟨a, head, rfl, hfree, hacc, ⟨rfl, rfl, fun _ _ => rfl, fun _ => rfl⟩, rfl⟩
  | cons i l₁ ih =>
    intro a head acc hfree hacc hdis
    have hnd := hfree.nodup
    obtain ⟨hhead, hrest⟩ := hfree
    have hi : i ∉ l₁ ++ l₂ := (nodup_cons.1 hnd).1
    have hiacc : i ∉ acc := fun hm => hdis i hm (by simp)
    -- the cell is cut off with a null link, which is then set to the chain built so far
    let a₁ : CChunkAllocator := { a.setNext i none with freeList := a.next i }
    have hloop : mallocLoop (i :: l₁).length a head = mallocLoop l₁.length (a₁.setNext i head) (some i) := by
      simp only [length_cons, mallocLoop, freeListRemove, hhead]
      rfl
    have hnext : (a₁.setNext i head).next = update a.next i head := by
      rw [next_setNext]
      exact (congrArg (update · i head) (next_setNext a i none)).trans (update_idem _ _ _)
    have hframe : LinkFrame [i] a (a₁.setNext i head) := by
      refine ⟨rfl, rfl, fun j hj => ?_, fun j => (data_setNext a₁ i head j).trans (data_setNext a i none j)⟩
      exact ((setNext_frame a₁ i head).node j hj).trans ((setNext_frame a i none).node j hj)
    obtain ⟨a', head', heq, hfree', hacc', hframe', htotal'⟩ := ih (a₁.setNext i head) (some i) (i :: acc)
      (by rw [hnext]; exact (chain_update_of_notMem hi).2 hrest)
      (by rw [hnext]; exact hacc.push hiacc)
      (fun j hj => by
        rcases mem_cons.1 hj with rfl | hj
        · exact hi
        · exact fun hm => hdis j hj (by simp [mem_append.1 hm]))
    refine ⟨a', head', hloop.trans heq, hfree', ?_, ?_, htotal'⟩
    · simpa using hacc'
    · exact hframe.trans hframe'

theorem malloc_spec {l₁ l₂ : List Nat} (hfree : Chain a.next a.freeList (l₁ ++ l₂))
    (htotal : a.freeTotal = (l₁ ++ l₂).length) (hlt : (l₁ ++ l₂).length < 2147483648) :
    ∃ a' head', a.malloc l₁.length = some (a', head') ∧ Chain a'.next a'.freeList l₂ ∧
      Chain a'.next head' l₁.reverse ∧ LinkFrame l₁ a a' ∧ a'.freeTotal = l₂.length := by
  obtain ⟨a', head', heq, hfree', hacc, hframe, htotal'⟩ :=
    mallocLoop_spec a none [] hfree rfl (by simp)
  rw [append_nil] at hacc
  have hge : ¬a.freeTotal < (l₁.length : Int) := by
    rw [htotal, length_append]
    omega
  refine ⟨{ a' with freeTotal := int32 (a'.freeTotal - l₁.length) }, head', ?_, hfree', hacc,
    ⟨hframe.chunkTotal, hframe.chunkSize, hframe.node, hframe.data⟩, ?_⟩
  · simp only [malloc, if_neg hge, Int.toNat_natCast, heq, some_bind_eq]
  change int32 (a'.freeTotal - l₁.length) = l₂.length
  rw [length_append] at htotal hlt
  rw [htotal', htotal, int32_of_range] <;> omega

theorem malloc_of_lack {n : Int} (hlack : a.freeTotal < n) : a.malloc n = some (a, none) := if_pos hlack

theorem freeLoop_spec {c : List Nat} : ∀ (a : CChunkAllocator) (hdr : Option Nat) (l : List Nat) (fuel : Nat),
    Chain a.next hdr c → Chain a.next a.freeList l → (∀ i ∈ c, i ∉ l) → a.freeTotal = l.length →
    (c ++ l).length < 2147483648 → c.length ≤ fuel →
    ∃ a', freeLoop fuel a hdr = some a' ∧ Chain a'.next a'.freeList (c.reverse ++ l) ∧ LinkFrame c a a' ∧
      a'.freeTotal = (c ++ l).length := by
  induction c with
  | nil =>
    intro a hdr l fuel hc hl _ htotal _ _
    rw [chain_nil] at hc
    subst hc
    refine ⟨a, ?_, hl, ⟨rfl, rfl, fun _ _ => rfl, fun _ => rfl⟩, htotal⟩
    cases fuel <;> rfl
  | cons i c ih =>
    intro a hdr l fuel hc hl hdis htotal hlt hfuel
    have hnd := hc.nodup
    obtain ⟨rfl, hc⟩ := hc
    have hi : i ∉ c := (nodup_cons.1 hnd).1
    have hil : i ∉ l := hdis i (by simp)
    simp only [length_append, length_cons] at hlt hfuel
    cases fuel with
    | zero => omega
    | succ fuel =>
      let a₁ : CChunkAllocator := { a.freeListInsert i with freeTotal := int32 (a.freeTotal + 1) }
      have hnext : a₁.next = update a.next i a.freeList := next_setNext a i a.freeList
      obtain ⟨a', heq, hfree, hframe, htotal'⟩ := ih a₁ (a.next i) (i :: l) fuel
        (by rw [hnext]; exact (chain_update_of_notMem hi).2 hc)
        (by rw [hnext]; exact hl.push hil)
        (fun j hj => by
          rw [mem_cons, not_or]
          exact ⟨ne_of_mem_of_not_mem hj hi, hdis j (by simp [hj])⟩)
        (by
          change int32 (a.freeTotal + 1) = _
          rw [htotal, length_cons, int32_of_range] <;> omega)
        (by simp only [length_append, length_cons]; omega)
        (by omega)
      have hframe₁ : LinkFrame [i] a a₁ :=
        ⟨rfl, rfl, (setNext_frame a i a.freeList).node, (setNext_frame a i a.freeList).data⟩
      refine ⟨a', heq, by simpa using hfree, hframe₁.trans hframe, ?_⟩
      rw [htotal']
      simp only [length_append, length_cons]
      omega

theorem free_spec {c l : List Nat} {hdr : Option Nat} (hc : Chain a.next hdr c) (hl : Chain a.next a.freeList l)
    (hdis : ∀ i ∈ c, i ∉ l) (htotal : a.freeTotal = l.length) (hlt : (c ++ l).length < 2147483648)
    (hfuel : c.length ≤ a.chunkTotal) :
    ∃ a', a.free hdr = some a' ∧ Chain a'.next a'.freeList (c.reverse ++ l) ∧ LinkFrame c a a' ∧
      a'.freeTotal = (c ++ l).length := freeLoop_spec _ _ _ _ hc hl hdis htotal hlt hfuel

/-- The chunks `c` hold the byte string `d`: each a full chunk of it, the last one the rest. -/
def Holds (a : CChunkAllocator) : List Nat → List UInt8 → Prop
  | [], d => d = []
  | i :: c, d => (a.chunkNodes i).data.take (d.take a.chunkSize).length = d.take a.chunkSize ∧ Holds a c (d.drop a.chunkSize)

theorem holds_congr {a a' : CChunkAllocator} (hsize : a'.chunkSize = a.chunkSize) {c : List Nat}
    (hdata : ∀ i ∈ c, (a'.chunkNodes i).data = (a.chunkNodes i).data) {d : List UInt8} : a'.Holds c d ↔ a.Holds c d := by
  induction c generalizing d with
  | nil => rfl
  | cons i c ih =>
    rw [Holds, Holds, hsize, hdata i (by simp), ih fun j hj => hdata j (by simp [hj])]

structure DataFrame (c : List Nat) (a a' : CChunkAllocator) : Prop where
  chunkTotal : a'.chunkTotal = a.chunkTotal
  chunkSize : a'.chunkSize = a.chunkSize
  freeTotal : a'.freeTotal = a.freeTotal
  freeList : a'.freeList = a.freeList
  next : a'.next = a.next
  node : ∀ i, i ∉ c → a'.chunkNodes i = a.chunkNodes i

theorem setData_frame (a : CChunkAllocator) (i : Nat) (c : List Nat) (data : List UInt8) :
    DataFrame (i :: c) a (a.setData i data) :=
  ⟨rfl, rfl, rfl, rfl, next_setData a i data, fun j hj => chunkNodes_modify_of_ne (by simpa using (not_or.1 (mt mem_cons.2 hj)).1) _⟩

theorem holds_setData (a : CChunkAllocator) (i : Nat) (d : List UInt8) :
    ((a.setData i d).chunkNodes i).data.take d.length = d := by
  simp [setData, overwrite]

/-- The loop of `split` over a chain no longer than the data needs: every copy has a length that is not negative. When
the chain is also long enough, it holds the data afterwards. -/
theorem splitLoop_spec {c : List Nat} : ∀ (a : CChunkAllocator) (hdr : Option Nat) (d : List UInt8) (len : Int) (fuel : Nat),
    Chain a.next hdr c → 0 < a.chunkSize → (c ≠ [] → ((c.length - 1 : Nat) : Int) * a.chunkSize ≤ len) → c.length ≤ fuel →
    ∃ a', splitLoop fuel a hdr d len = some a' ∧ DataFrame c a a' ∧
      (len = d.length → d.length ≤ c.length * a.chunkSize → a'.Holds c d) := by
  induction c with
  | nil =>
    intro a hdr d len fuel hc _ _ _
    rw [chain_nil] at hc
    subst hc
    refine ⟨a, ?_, ⟨rfl, rfl, rfl, rfl, rfl, fun _ _ => rfl⟩, fun _ hle => ?_⟩
    · cases fuel <;> rfl
    rw [length_nil, zero_mul, Nat.le_zero] at hle
    exact eq_nil_of_length_eq_zero hle
  | cons i c ih =>
    intro a hdr d len fuel hc hsize hlen hfuel
    have hi : i ∉ c := (nodup_cons.1 hc.nodup).1
    obtain ⟨rfl, hc⟩ := hc
    have hlen := hlen (by simp)
    rw [length_cons, Nat.add_sub_cancel] at hlen
    have hlen₀ := le_trans (by positivity) hlen
    cases fuel with
    | zero => simp at hfuel
    | succ fuel =>
      rw [length_cons, Nat.add_le_add_iff_right] at hfuel
      rw [splitLoop]
      split
      · rename_i hshort
        rw [if_neg (by omega)]
        refine ⟨_, rfl, setData_frame a i c _, fun hd _ => ?_⟩
        -- the copy that falls short of a chunk is the last one
        have hlast : c = [] := by
          by_contra hne
          have hpos : (1 : Int) ≤ c.length := by exact_mod_cast length_pos_of_ne_nil hne
          have := mul_le_mul_of_nonneg_right hpos (Int.natCast_nonneg a.chunkSize)
          omega
        subst hlast
        have hdlen : d.length < a.chunkSize := by omega
        refine ⟨?_, drop_eq_nil_of_le hdlen.le⟩
        change ((a.setData i (d.take len.toNat)).chunkNodes i).data.take (d.take a.chunkSize).length = d.take a.chunkSize
        rw [take_of_length_le hdlen.le, hd, Int.toNat_natCast, take_length]
        exact holds_setData a i d
      obtain ⟨a', heq, hframe, hholds⟩ := ih (a.setData i (d.take a.chunkSize))
        ((a.setData i (d.take a.chunkSize)).next i) (d.drop a.chunkSize) (len - a.chunkSize) fuel
        (by rw [next_setData]; exact hc) hsize
        (fun hne => by
          have hpos : 0 < c.length := length_pos_of_ne_nil hne
          change ((c.length - 1 : Nat) : Int) * a.chunkSize ≤ len - a.chunkSize
          rw [Nat.cast_sub hpos, Nat.cast_one, sub_mul, one_mul]
          omega)
        hfuel
      have hfirst := setData_frame a i c (d.take a.chunkSize)
      refine ⟨a', heq, ⟨hframe.chunkTotal, hframe.chunkSize, hframe.freeTotal, hframe.freeList,
        hframe.next.trans hfirst.next, fun j hj => ?_⟩, fun hd hle => ⟨?_, ?_⟩⟩
      · rw [hframe.node j fun hm => hj (by simp [hm]), hfirst.node j hj]
      · rw [hframe.node i hi, hframe.chunkSize]
        exact holds_setData a i (d.take a.chunkSize)
      have hsize' := hframe.chunkSize
      rw [hsize']
      refine hholds ?_ ?_
      · rw [length_drop]
        omega
      rw [length_drop]
      change d.length - a.chunkSize ≤ c.length * a.chunkSize
      rw [length_cons, add_mul, one_mul] at hle
      omega

theorem mergeLoop_spec {c : List Nat} : ∀ (hdr : Option Nat) (d : List UInt8) (out : List UInt8) (fuel : Nat),
    Chain a.next hdr c → a.Holds c d → c.length ≤ fuel → a.mergeLoop fuel hdr d.length out = some (out ++ d) := by
  induction c with
  | nil =>
    intro hdr d out fuel hc hholds _
    rw [chain_nil] at hc
    have hd : d = [] := hholds
    subst hc hd
    cases fuel <;> simp [mergeLoop]
  | cons i c ih =>
    intro hdr d out fuel hc hholds hfuel
    obtain ⟨rfl, hc⟩ := hc
    obtain ⟨hdata, hholds⟩ := hholds
    cases fuel with
    | zero => simp at hfuel
    | succ fuel =>
      rw [length_cons, Nat.add_le_add_iff_right] at hfuel
      rw [mergeLoop]
      by_cases hshort : d.length < a.chunkSize
      · rw [if_pos (by exact_mod_cast hshort), if_neg (by omega), Int.toNat_natCast]
        rw [take_of_length_le hshort.le] at hdata
        rw [hdata]
      rw [if_neg (by exact_mod_cast hshort)]
      have htake : (d.take a.chunkSize).length = a.chunkSize := by
        rw [length_take]
        omega
      have hrest : ((d.length : Int) - a.chunkSize) = ((d.drop a.chunkSize).length : Int) := by
        rw [length_drop]
        omega
      rw [htake] at hdata
      rw [hdata, hrest]
      refine (ih (a.next i) (d.drop a.chunkSize) _ fuel hc hholds hfuel).trans ?_
      rw [append_assoc, take_append_drop]

/-! ### The number of chunks -/

/-- `get_chunk_num` of a length that leaves room for the rounding is the length in chunks, rounded up. -/
theorem getChunkNum_of_fits {n : Nat} (hfits : n + a.chunkSize ≤ 2147483648) :
    a.getChunkNum n = ((n + a.chunkSize - 1) / a.chunkSize : Nat) := by
  rcases Nat.eq_zero_or_pos a.chunkSize with hzero | hpos
  · simp [getChunkNum, hzero]
  have hsum : (n : Int) + a.chunkSize - 1 = ((n + a.chunkSize - 1 : Nat) : Int) := by omega
  rw [getChunkNum, hsum, int32_of_range (by omega) (by omega)]
  exact (Int.ofNat_tdiv _ _).symm

theorem getChunkNum_lt (a : CChunkAllocator) (len : Int) : a.getChunkNum len < 2147483648 := by
  have hrange := int32_range (len + a.chunkSize - 1)
  rw [getChunkNum]
  rcases le_or_gt 0 (int32 (len + a.chunkSize - 1)) with hnonneg | hneg
  · exact lt_of_le_of_lt (Int.tdiv_le_self _ hnonneg) hrange.2
  have hquot := Int.tdiv_nonneg (show 0 ≤ -int32 (len + a.chunkSize - 1) by omega) (Int.natCast_nonneg a.chunkSize)
  rw [Int.neg_tdiv] at hquot
  omega

/-- A positive number of chunks comes from a sum that did not overflow, and is the length rounded up. -/
theorem getChunkNum_pos {len : Int} (hlow : -2147483648 ≤ len) (hhigh : len < 2147483648) (hsize : 0 < a.chunkSize)
    (hlt : a.chunkSize < 2147483648) (hpos : 0 < a.getChunkNum len) :
    (a.getChunkNum len - 1) * a.chunkSize < len ∧ len ≤ a.getChunkNum len * a.chunkSize := by
  rw [getChunkNum] at hpos ⊢
  generalize hx : int32 (len + a.chunkSize - 1) = x at hpos ⊢
  have hxpos : 0 < x := by
    by_contra hneg
    have hquot := Int.tdiv_nonneg (show 0 ≤ -x by omega) (Int.natCast_nonneg a.chunkSize)
    rw [Int.neg_tdiv] at hquot
    omega
  have hxeq : x = len + a.chunkSize - 1 := by
    unfold int32 at hx
    omega
  rw [Int.tdiv_eq_ediv_of_nonneg hxpos.le] at hpos ⊢
  have hdiv := Int.mul_ediv_add_emod x a.chunkSize
  have hmod := Int.emod_nonneg x (show (a.chunkSize : Int) ≠ 0 by omega)
  have hmod' := Int.emod_lt_of_pos x (show (0 : Int) < a.chunkSize by omega)
  rw [mul_comm] at hdiv
  rw [sub_mul, one_mul]
  omega

theorem split_spec {c : List Nat} {hdr : Option Nat} {d : List UInt8} {len : Int} (hc : Chain a.next hdr c)
    (hlow : -2147483648 ≤ len) (hhigh : len < 2147483648) (hsize : 0 < a.chunkSize) (hlt : a.chunkSize < 2147483648)
    (hnum : (c.length : Int) = a.getChunkNum len) (hfuel : c.length ≤ a.chunkTotal) :
    ∃ a', a.split hdr d len = some a' ∧ DataFrame c a a' ∧
      (len = d.length → d.length + a.chunkSize ≤ 2147483648 → a'.Holds c d) := by
  have hbounds (hne : c ≠ []) := getChunkNum_pos hlow hhigh hsize hlt (hnum ▸ Int.natCast_pos.2 (length_pos_of_ne_nil hne))
  rw [← hnum] at hbounds
  obtain ⟨a', heq, hframe, hholds⟩ := splitLoop_spec a hdr d len a.chunkTotal hc hsize (fun hne => by
    rw [Nat.cast_sub (length_pos_of_ne_nil hne), Nat.cast_one]
    exact (hbounds hne).1.le) hfuel
  refine ⟨a', heq, hframe, fun hd hfits => hholds hd ?_⟩
  rw [hd, getChunkNum_of_fits hfits, Int.natCast_inj] at hnum
  rw [hnum]
  have hdiv := Nat.div_add_mod (d.length + a.chunkSize - 1) a.chunkSize
  have hmod := Nat.mod_lt (d.length + a.chunkSize - 1) hsize
  rw [mul_comm]
  omega

end CChunkAllocator

end Mysql51.Cache
