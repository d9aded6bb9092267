import Mysql51.Cache.MarkClean

/-!
# Every call returns

A call of the interface returns when its arguments keep to the sizes of the pool and of the log.
-/

namespace Mysql51.Cache

open Link Machine Option

/-- The arguments of a call keep to the sizes of the pool and of the log, and there is a modulus to divide by. -/
def Op.Fits (z : PoolSizes) (logging : Prop) : Op → Prop
  | .set _ data flag _ => data.length + z.chunkSize ≤ 2147483647 ∧
      (logging → flag = .dirty → data.length + 36 ≤ maxBinlogItemLen)
  | .setExpire _ data _ flag _ => data.length + z.chunkSize ≤ 2147483647 ∧
      (logging → flag = .dirty → data.length + 36 ≤ maxBinlogItemLen)
  | .markCleanMod modbase _ _ => uint32 modbase ≠ 0
  | .delNode modbase _ => uint32 modbase ≠ 0
  | _ => True

theorem Op.Fits.short {z : PoolSizes} {logging : Prop} {op : Op} (h : op.Fits z logging) : op.Short z := by
  cases op with
  | set => exact h.1
  | setExpire => exact h.1
  | _ => trivial

namespace Sim

open CHashMap Lru CacheAccess

variable {z : PoolSizes} {s : CacheAccess} {add : List Nat} {l : List Entry}

theorem setCore_isSome (h : Sim z s.cache add l) {data : List UInt8} (hd : data.length + z.chunkSize ≤ 2147483647)
    {flag : ENodeFlag} (hlog : 0 ≤ s.cacheDumpMin → flag = .dirty → data.length + 36 ≤ maxBinlogItemLen) (key : TMBHashKey)
    (expiretime : Option Int) (now : Int) : (s.setCore key data expiretime flag now).isSome := by
  by_cases hacc : Accepts z l key data
  · obtain ⟨cache, add', -, heq⟩ := h.setCore_ok (by omega) hacc expiretime flag now
    rw [heq, isSome_map, isSome_iff_ne_none, Ne, writeLog_eq_none _ _ (setRecord_ne_nil _ _ _),
      length_setRecord, decide_eq_true_iff]
    rintro ⟨⟨hdump, hflag⟩, hlong⟩
    have := hlog hdump hflag
    omega
  obtain ⟨cache, add', -, heq⟩ := h.setCore_fails (by omega) hacc expiretime flag now
  rw [heq]
  rfl

theorem exec_isSome (h : Sim z s.cache add l) {op : Op} (hfits : op.Fits z (0 ≤ s.cacheDumpMin)) : (s.exec op).isSome := by
  cases op with
  | set key data flag now => exact h.setCore_isSome hfits.1 hfits.2 key none now
  | setExpire key data expiretime flag now => exact h.setCore_isSome hfits.1 hfits.2 key (some expiretime) now
  | get key bufSize =>
    obtain ⟨p, hget, -⟩ := map_eq_some_iff.1 (h.get_fst bufSize)
    rw [CacheAccess.exec, hget]
    rfl
  | getKey key =>
    rw [CacheAccess.exec, isSome_map]
    cases he : lookup l key with
    | none =>
      rw [h.getKey_none he]
      rfl
    | some e =>
      obtain ⟨cache, add', got, -, heq⟩ := h.getKey_some he
      rw [heq]
      rfl
  | markClean key now =>
    cases he : lookup l key with
    | none =>
      rw [CacheAccess.exec, h.markClean_none he]
      rfl
    | some e =>
      obtain ⟨i, hi, cache, rfl, -, -⟩ := h.markClean_some he now
      obtain ⟨e', s₁, -, -, hmark, -⟩ := h.markClean_returns hi now
      rw [CacheAccess.exec, hmark]
      rfl
  | markCleanMod modbase mobres now =>
    obtain ⟨s', hmark, -⟩ := h.markCleanMod_ends hfits mobres now
    rw [CacheAccess.exec, hmark]
    rfl
  | del key now =>
    cases he : lookup l key with
    | none =>
      rw [CacheAccess.exec, h.del_none he]
      rfl
    | some e =>
      obtain ⟨cache, add', -, heq⟩ := h.del_some he now
      rw [CacheAccess.exec, heq, isSome_map, isSome_iff_ne_none, Ne,
        writeLog_eq_none _ _ (recordHead_ne_nil _ _), length_recordHead]
      exact fun hlong => absurd hlong.2 (by decide)
  | delNode modbase mobres =>
    obtain ⟨cache, add', -, heq⟩ := h.delNode_ok hfits mobres
    rw [CacheAccess.exec, heq]
    rfl

end Sim

namespace CacheAccess

end CacheAccess

end Mysql51.Cache
