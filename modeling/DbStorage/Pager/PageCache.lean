import DbStorage.Core.Bytes

/-!
# The page cache (`PageCache` in `pager/mod.rs`)

An LRU over physical page bytes. Every entry carries the tick of its last
use; eviction candidates are kept in a min-heap of `(tick, page)` pairs that
may hold pairs whose tick is no longer the page's. The heap is a list in
ascending order: `push` is an ordered insertion, `pop` takes the head.

Result: `content_get`, `content_insert`, `content_evict`,
`content_invalidate`: no operation ever changes the bytes of an entry it
keeps.
-/
namespace DbStorage.Pager
open Std

/-- mirrors pager/mod.rs:123-133 -/
structure PageCache where
  capacity : Nat
  entries : ExtTreeMap UInt32 (Bytes × UInt64)
  evictionHeap : List (UInt64 × UInt32)
  tick : UInt64

namespace PageCache

/-- mirrors pager/mod.rs:136-143 -/
def new (capacity : Nat) : PageCache := ⟨capacity, ∅, [], 0⟩

/-- The heap's order: smallest tick first. -/
def heapLe (a b : UInt64 × UInt32) : Bool := a.1 < b.1 || (a.1 == b.1 && a.2 ≤ b.2)

def heapPush (x : UInt64 × UInt32) : List (UInt64 × UInt32) → List (UInt64 × UInt32)
  | [] => [x]
  | y :: ys => if heapLe x y then x :: y :: ys else y :: heapPush x ys

/-- mirrors pager/mod.rs:171-177 -/
def compactEvictionHeap (c : PageCache) : PageCache :=
  { c with evictionHeap := (c.entries.toList.map fun e => (e.2.2, e.1)).foldl (fun h x => heapPush x h) [] }

/-- mirrors pager/mod.rs:150-170 -/
def get (c : PageCache) (pageNum : UInt32) : Option Bytes × PageCache :=
  let tick := c.tick + 1
  let c := { c with tick := tick }
  match c.entries[pageNum]? with
  | none => (none, c)
  | some (bytes, _) =>
    let c := { c with
      entries := c.entries.insert pageNum (bytes, tick)
      evictionHeap := heapPush (tick, pageNum) c.evictionHeap }
    (some bytes, if c.evictionHeap.length > max (c.capacity * 4) 16 then c.compactEvictionHeap else c)

/-- Pops candidates until one is current; the popped heap shrinks every round.
mirrors pager/mod.rs:191-209 -/
def evictLoop : List (UInt64 × UInt32) → PageCache → Option (UInt32 × Bytes) × PageCache
  | [], c => (none, { c with evictionHeap := [] })
  | (tick, page) :: heap, c =>
    match c.entries[page]? with
    | some (bytes, current) =>
      if current = tick then
        (some (page, bytes), { c with entries := c.entries.erase page, evictionHeap := heap })
      else evictLoop heap c
    | none => evictLoop heap c

def evictOne (c : PageCache) : Option (UInt32 × Bytes) × PageCache := evictLoop c.evictionHeap c

/-- mirrors pager/mod.rs:179-186 -/
def insert (c : PageCache) (pageNum : UInt32) (bytes : Bytes) : PageCache :=
  let tick := c.tick + 1
  let c := { c with
    tick := tick
    entries := c.entries.insert pageNum (bytes, tick)
    evictionHeap := heapPush (tick, pageNum) c.evictionHeap }
  if c.entries.size > c.capacity then c.evictOne.2 else c

/-- mirrors pager/mod.rs:216-221 -/
def evictOneIfFull (c : PageCache) : Option Bytes × PageCache :=
  if c.entries.size < c.capacity then (none, c)
  else (c.evictOne.1.map Prod.snd, c.evictOne.2)

/-- mirrors pager/mod.rs:223-225 -/
def invalidate (c : PageCache) (pageNum : UInt32) : PageCache :=
  { c with entries := c.entries.erase pageNum }

/-! ## What an operation keeps -/

/-- The bytes cached for a page. -/
def content (c : PageCache) (p : UInt32) : Option Bytes := c.entries[p]?.map Prod.fst

/-- `c'` holds nothing that `c` does not hold. -/
def Sub (c' c : PageCache) : Prop := ∀ p b, c'.content p = some b → c.content p = some b

theorem content_new (n : Nat) (p : UInt32) : (new n).content p = none := by
  simp [content, new]

theorem content_get (c : PageCache) (p : UInt32) :
    (c.get p).1 = c.content p ∧ ∀ q, (c.get p).2.content q = c.content q := by
  cases h : c.entries[p]? with
  | none =>
    simp [get, h, content]
  | some e =>
    have hq : ∀ q, ((c.entries.insert p (e.1, c.tick + 1))[q]?).map Prod.fst = c.content q := by
      intro q
      rw [ExtTreeMap.getElem?_insert]
      by_cases hpq : p = q
      · subst hpq; simp [content, h]
      · simp [content, hpq]
    simp only [get, h]
    refine ⟨by simp [content, h], fun q => ?_⟩
    split
    · exact hq q
    · exact hq q

theorem evictLoop_sub (heap : List (UInt64 × UInt32)) (c : PageCache) : (evictLoop heap c).2.Sub c := by
  induction heap with
  | nil => exact fun p b h => h
  | cons x heap ih =>
    rw [evictLoop]
    split
    · split
      · intro p b h
        simp only [content, ExtTreeMap.getElem?_erase] at h
        split at h
        · cases h
        · exact h
      · exact ih
    · exact ih

theorem content_evict (c : PageCache) : c.evictOneIfFull.2.Sub c := by
  unfold evictOneIfFull
  split
  · exact fun p b h => h
  · exact evictLoop_sub _ c

theorem content_insert (c : PageCache) (p : UInt32) (b : Bytes) {q : UInt32} {d : Bytes}
    (h : (c.insert p b).content q = some d) : (q = p ∧ d = b) ∨ c.content q = some d := by
  have hins : ∀ {t : UInt64}, ((c.entries.insert p (b, t))[q]?).map Prod.fst = some d →
      (q = p ∧ d = b) ∨ c.content q = some d := by
    intro t ht
    rw [ExtTreeMap.getElem?_insert] at ht
    by_cases hpq : p = q
    · subst hpq
      exact .inl ⟨rfl, by simpa [eq_comm] using ht⟩
    · exact .inr (by simpa [content, hpq] using ht)
  unfold insert at h
  simp only at h
  split at h
  · exact hins (evictLoop_sub _ _ q d h)
  · exact hins h

theorem content_invalidate (c : PageCache) (p : UInt32) :
    (c.invalidate p).content p = none ∧ (c.invalidate p).Sub c := by
  constructor
  · simp [content, invalidate]
  · intro q b h
    simp only [content, invalidate, ExtTreeMap.getElem?_erase] at h
    split at h
    · cases h
    · exact h

end PageCache
end DbStorage.Pager
