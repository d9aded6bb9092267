import Mathlib.Tactic.IntervalCases
import Mysql51.Lib.Heap

/-!
# The priority queue of `mysys/queues.c`

A queue is a heap of pointers in the places from one on of an array. Place zero is only used while an element is inserted.
`_downheap` lets the hole sink to a leaf and then climb back, but never above the place where it started.
-/

namespace Mysql51.Mysys

open Function Machine

variable {α : Type}

/-- `QUEUE`: `max_at_top` is one, or minus one if the biggest element is to be on top. -/
structure Queue (α : Type) where
  root : Nat → α
  elements : Nat
  compare : α → α → Int
  maxAtTop : Int
  sign : maxAtTop = 1 ∨ maxAtTop = -1

namespace Queue

variable (queue : Queue α)

def order (a b : α) : Int := queue.compare a b * queue.maxAtTop

theorem order_comparison (h : Comparison queue.compare) : Comparison queue.order := by
  obtain hsign | hsign := queue.sign
  · have heq : queue.order = queue.compare := by
      funext a b
      rw [order, hsign, Int.mul_one]
    exact heq ▸ h
  have heq : queue.order = fun a b => queue.compare a b * -1 := by
    funext a b
    rw [order, hsign]
  exact heq ▸ h.neg

def HeapOrder : Prop := OrderedFrom queue.order queue.elements 1 queue.root

def held : Multiset α := bag queue.elements queue.root

end Queue

/-! ### Insertion -/

def insertLoop (order : α → α → Int) (element : α) : Nat → Nat → (Nat → α) → Option (Nat → α)
  | 0, _, _ => none
  | fuel + 1, idx, root =>
    let next := idx / 2
    if order element (root next) < 0 then insertLoop order element fuel next (update root idx (root next))
    else some (update root idx element)

variable (queue : Queue α)

def queueInsert (element : α) : Option (Queue α) :=
  let idx := queue.elements + 1
  (insertLoop queue.order element idx idx (update queue.root 0 element)).map fun root =>
    { queue with root := root, elements := idx }

/-! ### The way down and up again -/

def climbLoop (order : α → α → Int) (startIdx : Nat) (element : α) : Nat → Nat → (Nat → α) → Nat → α
  | 0, idx, root => update root idx element
  | fuel + 1, idx, root =>
    let nextIndex := idx / 2
    if startIdx < nextIndex then
      if order (root nextIndex) element < 0 then update root idx element
      else climbLoop order startIdx element fuel nextIndex (update root idx (root nextIndex))
    else update root idx element

def smallerChild (order : α → α → Int) (elements idx : Nat) (root : Nat → α) : Nat :=
  let nextIndex := idx + idx
  if nextIndex < elements ∧ 0 < order (root nextIndex) (root (nextIndex + 1)) then nextIndex + 1 else nextIndex

def sinkLoop (order : α → α → Int) (elements startIdx : Nat) (element : α) : Nat → Bool → Nat → (Nat → α) → Nat → α
  | 0, _, idx, root => climbLoop order startIdx element idx idx root
  | fuel + 1, first, idx, root =>
    if idx ≤ elements / 2 then
      let nextIndex := smallerChild order elements idx root
      -- only the element that is still where it started is compared on the way down
      if first ∧ 0 ≤ order (root nextIndex) element then update root idx element
      else sinkLoop order elements startIdx element fuel false nextIndex (update root idx (root nextIndex))
    else climbLoop order startIdx element idx idx root

def downheap (idx : Nat) : Queue α :=
  { queue with
    root := sinkLoop queue.order queue.elements idx (queue.root idx) queue.elements true idx queue.root }

/-- `queue_remove` before it calls `_downheap`: the last element is put in place `idx`. -/
def takeOut (idx : Nat) : Queue α :=
  { queue with
    root := update queue.root idx (queue.root queue.elements)
    elements := queue.elements - 1 }

def queueRemove (idx : Nat) : α × Queue α :=
  (queue.root (idx + 1), downheap (takeOut queue (idx + 1)) (idx + 1))

def queueReplaced : Queue α := downheap queue 1

def fixLoop : Nat → Queue α → Queue α
  | 0, queue => queue
  | i + 1, queue => fixLoop i (downheap queue (i + 1))

def queueFix : Queue α := fixLoop (queue.elements / 2) queue

/-! ### Every operation but the removal restores the order -/

section

variable {order : α → α → Int} {n k : Nat} {element : α}

theorem insertLoop_spec (horder : Comparison order) (fuel idx : Nat) (root : Nat → α) (hidx : 1 ≤ idx) (hn : idx ≤ n)
    (hfuel : idx ≤ fuel) (hzero : root 0 = element) (hholed : Holed order n 1 root idx)
    (hbelow : ∀ c, 2 ≤ c → c ≤ n → c / 2 = idx → order element (root c) ≤ 0) :
    ∃ root', insertLoop order element fuel idx root = some root' ∧ OrderedFrom order n 1 root' ∧
      bag n root' = bag n (update root idx element) := by
  induction fuel generalizing idx root with
  | zero => omega
  | succ fuel ih =>
    rw [insertLoop]
    split
    next hlt =>
      have htwo : 2 ≤ idx := by
        by_contra hone
        rw [show idx / 2 = 0 by omega, hzero, horder.self] at hlt
        omega
      obtain ⟨root', hrun, hordered, hbag⟩ := ih (idx / 2) (update root idx (root (idx / 2))) (by omega) (by omega)
        (by omega) (by rw [update_of_ne (by omega), hzero]) (hholed.up horder htwo hn (by omega)) fun c hc hcn hchild => by
          by_cases heq : c = idx
          · rw [heq, update_self]
            omega
          rw [update_of_ne heq]
          refine horder.trans (Int.le_of_lt hlt) ?_
          rw [← hchild]
          exact hholed.off c hc hcn (by omega) heq (by omega)
      refine ⟨root', hrun, hordered, ?_⟩
      rw [hbag, bag_move ⟨hidx, hn⟩ ⟨by omega, by omega⟩ (by omega)]
    next hge =>
      exact ⟨_, rfl, hholed.fill (fun _ _ => horder.not_lt.1 hge) fun c hc hcn hchild _ => hbelow c hc hcn hchild, rfl⟩

/-- What a hole on its way back up needs: it is where it started, or what is there now comes before the element. -/
def Climbable (order : α → α → Int) (k startIdx : Nat) (element : α) (idx : Nat) (root : Nat → α) : Prop :=
  (idx = startIdx ∧ (2 ≤ startIdx → k ≤ startIdx / 2 → order (root (startIdx / 2)) element ≤ 0)) ∨
    (startIdx < idx ∧ Below startIdx idx ∧ order (root startIdx) element < 0)

theorem climbLoop_spec (horder : Comparison order) {startIdx : Nat} (hstart : 1 ≤ startIdx) (hk : k ≤ startIdx)
    (fuel idx : Nat) (root : Nat → α) (hn : idx ≤ n) (hfuel : idx ≤ fuel) (hholed : Holed order n k root idx)
    (hbelow : ∀ c, 2 ≤ c → c ≤ n → c / 2 = idx → order element (root c) ≤ 0)
    (hclimb : Climbable order k startIdx element idx root) :
    OrderedFrom order n k (climbLoop order startIdx element fuel idx root) ∧
      bag n (climbLoop order startIdx element fuel idx root) = bag n (update root idx element) := by
  have hfill : (2 ≤ idx → k ≤ idx / 2 → order (root (idx / 2)) element ≤ 0) → OrderedFrom order n k (update root idx element) :=
    fun habove => hholed.fill habove fun c hc hcn hchild _ => hbelow c hc hcn hchild
  induction fuel generalizing idx root with
  | zero =>
    obtain ⟨rfl, -⟩ | ⟨hlt, -⟩ := hclimb <;> omega
  | succ fuel ih =>
    rw [climbLoop]
    split
    next hlt =>
      split
      next hbefore => exact ⟨hfill fun _ _ => Int.le_of_lt hbefore, rfl⟩
      next hafter =>
        obtain ⟨rfl, -⟩ | ⟨-, hpath, htop⟩ := hclimb
        · omega
        have hup := hholed.up horder (by omega) hn (by omega)
        have hbelow' : ∀ c, 2 ≤ c → c ≤ n → c / 2 = idx / 2 → order element (update root idx (root (idx / 2)) c) ≤ 0 := by
          intro c hc hcn hchild
          have hle := horder.not_lt.1 hafter
          by_cases heq : c = idx
          · rwa [heq, update_self]
          rw [update_of_ne heq]
          refine horder.trans hle ?_
          rw [← hchild]
          exact hholed.off c hc hcn (by omega) heq (by omega)
        have hclimb' : Climbable order k startIdx element (idx / 2) (update root idx (root (idx / 2))) :=
          .inr ⟨hlt, hpath.parent (by omega), by rwa [update_of_ne (by omega)]⟩
        obtain ⟨hordered, hbag⟩ := ih (idx / 2) (update root idx (root (idx / 2))) (by omega) (by omega) hup hbelow'
          hclimb' fun habove => hup.fill habove fun c hc hcn hchild _ => hbelow' c hc hcn hchild
        refine ⟨hordered, ?_⟩
        rw [hbag, bag_move ⟨by omega, hn⟩ ⟨by omega, by omega⟩ (by omega)]
    next hge =>
      refine ⟨hfill ?_, rfl⟩
      obtain ⟨rfl, habove⟩ | ⟨hlt, hpath, htop⟩ := hclimb
      · exact habove
      have heq : idx / 2 = startIdx := by
        have hle := (hpath.parent hlt).le
        omega
      intro _ _
      rw [heq]
      exact Int.le_of_lt htop

theorem smallerChild_spec (horder : Comparison order) {idx : Nat} (root : Nat → α) (hhalf : idx ≤ n / 2) :
    smallerChild order n idx root ≤ n ∧ smallerChild order n idx root / 2 = idx ∧
      ∀ s, s ≤ n → s / 2 = idx → order (root (smallerChild order n idx root)) (root s) ≤ 0 := by
  rw [smallerChild]
  split
  next hright =>
    refine ⟨by omega, by omega, fun s _ hs => ?_⟩
    obtain rfl | rfl : s = idx + idx ∨ s = idx + idx + 1 := by omega
    · exact Int.le_of_lt ((horder.swap _ _).2 hright.2)
    · exact Int.le_of_eq (horder.self _)
  next hleft =>
    refine ⟨by omega, by omega, fun s hsn hs => ?_⟩
    obtain rfl | rfl : s = idx + idx ∨ s = idx + idx + 1 := by omega
    · exact Int.le_of_eq (horder.self _)
    · exact Int.not_lt.1 fun hlt => hleft ⟨by omega, hlt⟩

theorem sinkLoop_spec (horder : Comparison order) {startIdx : Nat} (hstart : 1 ≤ startIdx) (hk : k ≤ startIdx)
    (fuel idx : Nat) (root : Nat → α) (hn : idx ≤ n) (hfuel : n ≤ idx + fuel) (hholed : Holed order n k root idx)
    (hlt : startIdx < idx) (hpath : Below startIdx idx) (htop : order (root startIdx) element < 0) :
    OrderedFrom order n k (sinkLoop order n startIdx element fuel false idx root) ∧
      bag n (sinkLoop order n startIdx element fuel false idx root) = bag n (update root idx element) := by
  have hclimb (hleaf : n / 2 < idx) := climbLoop_spec horder hstart hk idx idx root hn (Nat.le_refl idx) hholed
    (fun c hc hcn hchild => absurd hchild (by omega)) (.inr ⟨hlt, hpath, htop⟩)
  induction fuel generalizing idx root with
  | zero => exact hclimb (by omega)
  | succ fuel ih =>
    rw [sinkLoop]
    split
    next hhalf =>
      rw [if_neg (by simp)]
      obtain ⟨hcn, hchild, hleast⟩ := smallerChild_spec horder root hhalf
      generalize smallerChild order n idx root = c at *
      have hdown := hholed.down (by omega) hcn hchild (by omega) hleast
      have htop' : order (update root idx (root c) startIdx) element < 0 := by rwa [update_of_ne (by omega)]
      obtain ⟨hordered, hbag⟩ := ih c (update root idx (root c)) hcn (by omega) hdown (by omega)
        (hpath.child hchild) htop' fun hleaf => climbLoop_spec horder hstart hk c c _ hcn (Nat.le_refl c) hdown
          (fun d hd hdn hd2 => absurd hd2 (by omega)) (.inr ⟨by omega, hpath.child hchild, htop'⟩)
      refine ⟨hordered, ?_⟩
      rw [hbag, bag_move ⟨by omega, hn⟩ ⟨by omega, hcn⟩ (by omega)]
    next hleaf => exact hclimb (by omega)

theorem sinkLoop_stays (fuel idx : Nat) (root : Nat → α)
    (hstays : idx ≤ n / 2 → 0 ≤ order (root (smallerChild order n idx root)) element) :
    sinkLoop order n idx element fuel true idx root = update root idx element := by
  have hclimb : climbLoop order idx element idx idx root = update root idx element := by
    cases idx with
    | zero => rfl
    | succ i => rw [climbLoop, if_neg (by omega)]
  cases fuel with
  | zero => exact hclimb
  | succ fuel =>
    rw [sinkLoop]
    split
    next hhalf => rw [if_pos ⟨rfl, hstays hhalf⟩]
    next => exact hclimb

end

section

variable (queue : Queue α) {k idx : Nat}

section

variable (hcmp : Comparison queue.compare)
include hcmp

theorem downheap_spec (hidx : 1 ≤ idx) (hn : idx ≤ queue.elements) (hk : k ≤ idx)
    (hholed : Holed queue.order queue.elements k queue.root idx)
    (habove : 2 ≤ idx → k ≤ idx / 2 → queue.order (queue.root (idx / 2)) (queue.root idx) ≤ 0) :
    OrderedFrom queue.order queue.elements k (downheap queue idx).root ∧ (downheap queue idx).held = queue.held := by
  have horder := queue.order_comparison hcmp
  have hself := update_eq_self idx queue.root
  rw [Queue.held, Queue.held, downheap]
  generalize helement : queue.root idx = element at *
  generalize queue.order = order at *
  generalize queue.elements = n at *
  by_cases hstays : idx ≤ n / 2 → 0 ≤ order (queue.root (smallerChild order n idx queue.root)) element
  · rw [sinkLoop_stays n idx queue.root hstays, hself]
    refine ⟨?_, rfl⟩
    rw [← hself]
    refine hholed.fill habove fun c _ hcn hchild _ => ?_
    have hhalf : idx ≤ n / 2 := by omega
    exact horder.trans (horder.not_lt.1 (Int.not_lt.2 (hstays hhalf))) ((smallerChild_spec horder _ hhalf).2.2 c hcn hchild)
  obtain ⟨hhalf, hlt⟩ : idx ≤ n / 2 ∧ order (queue.root (smallerChild order n idx queue.root)) element < 0 := by
    simpa only [Classical.not_imp, Int.not_le] using hstays
  obtain ⟨fuel, rfl⟩ : ∃ fuel, n = fuel + 1 := ⟨n - 1, by omega⟩
  rw [sinkLoop, if_pos hhalf, if_neg (by simp [hlt])]
  obtain ⟨hcn, hchild, hleast⟩ := smallerChild_spec horder queue.root hhalf
  generalize smallerChild order (fuel + 1) idx queue.root = c at *
  obtain ⟨hordered, hbag⟩ := sinkLoop_spec horder hidx hk fuel c (update queue.root idx (queue.root c)) hcn (by omega)
    (hholed.down hidx hcn hchild hk hleast) (by omega) ((Below.refl idx).child hchild) (by rwa [update_self])
  refine ⟨hordered, ?_⟩
  rw [hbag, bag_move ⟨hidx, hn⟩ ⟨by omega, hcn⟩ (by omega), hself]

theorem queueInsert_spec (horder : queue.HeapOrder) (element : α) :
    ∃ queue', queueInsert queue element = some queue' ∧ queue'.HeapOrder ∧ queue'.held = element ::ₘ queue.held := by
  have hroot (i : Nat) (hi : 1 ≤ i) : update queue.root 0 element i = queue.root i := update_of_ne (by omega) _ _
  have hholed : Holed queue.order (queue.elements + 1) 1 (update queue.root 0 element) (queue.elements + 1) := by
    refine ⟨fun i hi hin hk hne hpne => ?_, fun _ _ c hc hchild => absurd hchild (by omega)⟩
    rw [hroot _ hk, hroot i (by omega)]
    exact horder i hi (by omega) hk
  obtain ⟨root', hrun, hordered, hbag⟩ := insertLoop_spec (queue.order_comparison hcmp) (queue.elements + 1)
    (queue.elements + 1) (update queue.root 0 element) (by omega) (Nat.le_refl _) (Nat.le_refl _) (update_self ..) hholed
    fun c hc hcn hchild => absurd hchild (by omega)
  refine ⟨{ queue with root := root', elements := queue.elements + 1 }, by rw [queueInsert, hrun]; rfl, hordered, ?_⟩
  rw [Queue.held, hbag, bag_succ, update_self, Queue.held]
  congr 1
  refine bag_congr fun i hi hin => ?_
  rw [update_of_ne (by omega), hroot i hi]

theorem queueReplaced_spec (horder : queue.HeapOrder) (hpos : 0 < queue.elements) (element : α) :
    (queueReplaced { queue with root := update queue.root 1 element }).HeapOrder ∧
      (queueReplaced { queue with root := update queue.root 1 element }).held =
        Queue.held { queue with root := update queue.root 1 element } := by
  refine downheap_spec { queue with root := update queue.root 1 element } hcmp (Nat.le_refl 1) hpos (Nat.le_refl 1)
    ⟨fun i hi hin hk hne hpne => ?_, fun htwo => ?_⟩ fun htwo => ?_
  · dsimp only
    rw [update_of_ne hne, update_of_ne hpne]
    exact horder i hi hin hk
  · omega
  omega

theorem fixLoop_spec (i : Nat) (hi : i ≤ queue.elements / 2)
    (hordered : OrderedFrom queue.order queue.elements (i + 1) queue.root) :
    (fixLoop i queue).HeapOrder ∧ (fixLoop i queue).held = queue.held := by
  induction i generalizing queue with
  | zero => exact ⟨hordered, rfl⟩
  | succ i ih =>
    obtain ⟨hnext, hheld⟩ := downheap_spec queue (k := i + 1) hcmp (Nat.le_add_left 1 i) (by omega) (Nat.le_refl _)
      ⟨fun j hj hjn hk hne hpne => hordered j hj hjn (by omega), fun _ hk => absurd hk (by omega)⟩
      fun _ hk => absurd hk (by omega)
    obtain ⟨hheap, hheld'⟩ := ih (downheap queue (i + 1)) hcmp (show i ≤ queue.elements / 2 by omega) hnext
    exact ⟨hheap, hheld'.trans hheld⟩

theorem queueFix_spec : (queueFix queue).HeapOrder ∧ (queueFix queue).held = queue.held :=
  fixLoop_spec queue hcmp _ (Nat.le_refl _) fun i _ hin hk => absurd hk (by omega)

end

theorem downheap_stays (hstays : idx ≤ queue.elements / 2 →
      0 ≤ queue.order (queue.root (smallerChild queue.order queue.elements idx queue.root)) (queue.root idx)) :
    downheap queue idx = queue := by
  rw [downheap, sinkLoop_stays _ _ _ hstays, update_eq_self]

/-! ### The removal -/

theorem takeOut_root_self : (takeOut queue idx).root idx = queue.root queue.elements := update_self ..

theorem takeOut_root_of_ne {i : Nat} (hi : i ≠ idx) : (takeOut queue idx).root i = queue.root i := update_of_ne hi ..

theorem takeOut_held (hidx : 1 ≤ idx) (hn : idx ≤ queue.elements) : queue.root idx ::ₘ (takeOut queue idx).held = queue.held := by
  obtain ⟨n, hlast⟩ : ∃ n, queue.elements = n + 1 := ⟨queue.elements - 1, by omega⟩
  rw [Queue.held, Queue.held, takeOut]
  dsimp only
  rw [hlast, Nat.add_sub_cancel]
  by_cases heq : idx = n + 1
  · have hsame : bag n (update queue.root idx (queue.root (n + 1))) = bag n queue.root :=
      bag_congr fun i _ hi => update_of_ne (by omega) ..
    rw [hsame, heq, bag_succ]
  rw [bag_replace ⟨hidx, by omega⟩, bag_succ]

theorem takeOut_holed (hcmp : Comparison queue.compare) (horder : queue.HeapOrder) :
    Holed queue.order (queue.elements - 1) 1 (takeOut queue idx).root idx := by
  have hholed := OrderedFrom.holed (queue.order_comparison hcmp) horder idx
  refine ⟨fun i hi hin hk hne hpne => ?_, fun htwo hk c hc hchild => ?_⟩
  · rw [takeOut_root_of_ne queue hne, takeOut_root_of_ne queue hpne]
    exact hholed.off i hi (by omega) hk hne hpne
  rw [takeOut_root_of_ne queue (by omega), takeOut_root_of_ne queue (by omega)]
  exact hholed.across htwo hk c (by omega) hchild

/-- The last element may take the place of the removed one without going above it. -/
def FitsBelow (queue : Queue α) (idx : Nat) : Prop :=
  idx + 1 = queue.elements ∨ idx = 0 ∨ queue.order (queue.root ((idx + 1) / 2)) (queue.root queue.elements) ≤ 0

theorem queueRemove_ordered (hcmp : Comparison queue.compare) (horder : queue.HeapOrder) (hidx : idx < queue.elements)
    (hfits : FitsBelow queue idx) :
    (queueRemove queue idx).2.HeapOrder ∧ (queueRemove queue idx).2.held = (takeOut queue (idx + 1)).held := by
  by_cases hlast : idx + 1 = queue.elements
  · have hstays : downheap (takeOut queue (idx + 1)) (idx + 1) = takeOut queue (idx + 1) :=
      downheap_stays _ fun hhalf => absurd hhalf (show ¬ idx + 1 ≤ (queue.elements - 1) / 2 by omega)
    refine ⟨?_, congrArg Queue.held hstays⟩
    rw [queueRemove, hstays]
    intro i hi hin hk
    have hin' : i ≤ queue.elements - 1 := hin
    rw [takeOut_root_of_ne queue (by omega), takeOut_root_of_ne queue (by omega)]
    exact horder i hi (by omega) hk
  refine downheap_spec (takeOut queue (idx + 1)) hcmp (by omega) (show idx + 1 ≤ queue.elements - 1 by omega) (by omega)
    (takeOut_holed queue hcmp horder) fun htwo _ => ?_
  rw [takeOut_root_self, takeOut_root_of_ne queue (by omega)]
  obtain hlast' | hzero | hle := hfits
  · exact absurd hlast' hlast
  · omega
  exact hle

/-- An element that comes before the parent of its new place comes before the children too: it stays there. -/
theorem queueRemove_unordered (hcmp : Comparison queue.compare) (horder : queue.HeapOrder) (hidx : idx < queue.elements)
    (hfits : ¬ FitsBelow queue idx) :
    ¬ (queueRemove queue idx).2.HeapOrder ∧ (queueRemove queue idx).2.held = (takeOut queue (idx + 1)).held := by
  have hcomparison := queue.order_comparison hcmp
  obtain ⟨hlast, hzero, hbefore⟩ : ¬ idx + 1 = queue.elements ∧ ¬ idx = 0 ∧
      ¬ queue.order (queue.root ((idx + 1) / 2)) (queue.root queue.elements) ≤ 0 := by
    simpa only [FitsBelow, not_or] using hfits
  have hparent := takeOut_root_of_ne queue (show (idx + 1) / 2 ≠ idx + 1 by omega)
  have hstays : downheap (takeOut queue (idx + 1)) (idx + 1) = takeOut queue (idx + 1) := by
    refine downheap_stays _ fun hhalf => ?_
    obtain ⟨hcn, hchild, -⟩ := smallerChild_spec hcomparison (takeOut queue (idx + 1)).root hhalf
    have hacross := (takeOut_holed queue hcmp horder).across (by omega) (by omega) _ hcn hchild
    rw [hparent] at hacross
    rw [takeOut_root_self]
    by_contra hneg
    exact hbefore (hcomparison.trans hacross (Int.le_of_lt (Int.not_le.1 hneg)))
  refine ⟨fun hheap => hbefore ?_, congrArg Queue.held hstays⟩
  rw [queueRemove, hstays] at hheap
  have hpair := hheap (idx + 1) (by omega) (show idx + 1 ≤ queue.elements - 1 by omega) (by omega)
  rwa [hparent, takeOut_root_self] at hpair

end

/-! ### All operations -/

/-- In a queue that is in order every operation changes the elements by exactly the one that is inserted, replaced or returned,
and all but the removal leave an order. The removal does so exactly if the element that takes the place is not before the
parent of that place. -/
theorem queue_operations_iff (queue : Queue α) (hcmp : Comparison queue.compare) (horder : queue.HeapOrder) (element : α) :
    (∃ queue', queueInsert queue element = some queue' ∧ queue'.HeapOrder ∧ queue'.held = element ::ₘ queue.held) ∧
      (0 < queue.elements → (queueReplaced { queue with root := update queue.root 1 element }).HeapOrder ∧
        queue.root 1 ::ₘ (queueReplaced { queue with root := update queue.root 1 element }).held = element ::ₘ queue.held) ∧
      (∀ (root : Nat → α) (elements : Nat),
        (queueFix { queue with root := root, elements := elements }).HeapOrder ∧
          (queueFix { queue with root := root, elements := elements }).held = bag elements root) ∧
      ∀ idx < queue.elements, (queueRemove queue idx).1 = queue.root (idx + 1) ∧
        (queueRemove queue idx).1 ::ₘ (queueRemove queue idx).2.held = queue.held ∧
        ((queueRemove queue idx).2.HeapOrder ↔ FitsBelow queue idx) := by
  refine ⟨queueInsert_spec queue hcmp horder element, fun hpos => ?_,
    fun root elements => queueFix_spec { queue with root := root, elements := elements } hcmp, fun idx hidx => ⟨rfl, ?_⟩⟩
  · obtain ⟨hreplaced, hheld⟩ := queueReplaced_spec queue hcmp horder hpos element
    refine ⟨hreplaced, ?_⟩
    rw [hheld]
    exact bag_replace ⟨Nat.le_refl 1, hpos⟩ queue.root element
  have htaken := takeOut_held queue (Nat.le_add_left 1 idx) hidx
  by_cases hfits : FitsBelow queue idx
  · obtain ⟨hheap, hkept⟩ := queueRemove_ordered queue hcmp horder hidx hfits
    exact ⟨hkept ▸ htaken, fun _ => hfits, fun _ => hheap⟩
  · obtain ⟨hheap, hkept⟩ := queueRemove_unordered queue hcmp horder hidx hfits
    exact ⟨hkept ▸ htaken, fun h => absurd h hheap, fun h => absurd h hfits⟩

def sevenNumbers : Queue Int where
  root i := [0, 1, 10, 2, 11, 12, 3, 4].getD i 0
  elements := 7
  compare a b := a - b
  maxAtTop := 1
  sign := .inl rfl

theorem sub_comparison : Comparison fun a b : Int => a - b :=
  ⟨fun a b => by omega, fun {a b c} hab hbc => by omega⟩

theorem sevenNumbers_heapOrder : sevenNumbers.HeapOrder := by
  intro i hi hin _
  have hin' : i ≤ 7 := hin
  interval_cases i <;> decide

theorem queue_operations_sevenNumbers : (queueRemove sevenNumbers 1).2.HeapOrder ∧ FitsBelow sevenNumbers 1 := by
  have hfits : FitsBelow sevenNumbers 1 := .inr (.inr (by decide))
  exact ⟨((queue_operations_iff sevenNumbers sub_comparison sevenNumbers_heapOrder 5).2.2.2 1 (by decide)).2.2.2 hfits, hfits⟩

/-- When the eleven is removed, the four takes its place below the ten. -/
theorem queueRemove_disorders : sevenNumbers.HeapOrder ∧ (queueRemove sevenNumbers 3).1 = 11 ∧
    (queueRemove sevenNumbers 3).2.root 2 = 10 ∧ (queueRemove sevenNumbers 3).2.root 4 = 4 ∧
    ¬ (queueRemove sevenNumbers 3).2.HeapOrder := by
  refine ⟨sevenNumbers_heapOrder, by decide, by decide, by decide, fun hheap => ?_⟩
  have hpair := hheap 4 (by decide) (by decide) (by decide)
  exact absurd hpair (by decide)

end Mysql51.Mysys
