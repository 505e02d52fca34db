import DbStorage.Pager.PageCache

/-!
# The page cache is an LRU cache

The reference is the list of the cached pages, least recently used first.
`Simulates c us`: the entries of the cache are `us`, in the order of their
ticks, and each is in the heap under its tick; what else is in the heap is
stale.

Result: `lru_refined` (for fewer than 2^64 calls of any kind the cache answers
as the reference does and holds the same pages, at most `capacity`).
-/
namespace DbStorage.Pager
open Std List

inductive CacheCall where
  | get (page : UInt32)
  | insert (page : UInt32) (bytes : Bytes)
  | invalidate (page : UInt32)
  | evictOneIfFull

def PageCache.call (c : PageCache) : CacheCall → Option Bytes × PageCache
  | .get p => c.get p
  | .insert p b => (none, c.insert p b)
  | .invalidate p => (none, c.invalidate p)
  | .evictOneIfFull => c.evictOneIfFull

/-! ## The reference -/

/-- The cached pages, least recently used first. -/
abbrev Lru := List (UInt32 × Bytes)

namespace Lru

def find (l : Lru) (p : UInt32) : Option Bytes := (l.find? fun e => e.1 == p).map Prod.snd

def without (l : Lru) (p : UInt32) : Lru := l.filter fun e => e.1 != p

/-- `p` becomes the most recently used page. -/
def use (l : Lru) (p : UInt32) (b : Bytes) : Lru := l.without p ++ [(p, b)]

def call (capacity : Nat) (l : Lru) : CacheCall → Option Bytes × Lru
  | .get p => (l.find p, match l.find p with
    | none => l
    | some b => l.use p b)
  | .insert p b => (none, if capacity < (l.use p b).length then (l.use p b).tail else l.use p b)
  | .invalidate p => (none, l.without p)
  | .evictOneIfFull => if l.length < capacity then (none, l) else (l.head?.map Prod.snd, l.tail)

theorem call_length {capacity : Nat} {l : Lru} (h : l.length ≤ capacity) (a : CacheCall) :
    (l.call capacity a).2.length ≤ capacity := by
  have hwithout : ∀ p, (l.without p).length ≤ l.length := fun p => length_filter_le _ _
  cases a with
  | get p =>
    rw [call]
    dsimp only
    split
    · exact h
    · rename_i b hb
      have hlt : (l.without p).length < l.length := by
        obtain ⟨e, he, -⟩ := Option.map_eq_some_iff.1 hb
        have := List.find?_some he
        exact length_filter_lt_length_iff_exists.2 ⟨e, mem_of_find?_eq_some he, by simp_all⟩
      rw [use, length_append, length_singleton]
      omega
  | insert p b =>
    have := hwithout p
    have hlen : (l.use p b).length = (l.without p).length + 1 := length_append
    rw [call]
    dsimp only
    split
    · rw [length_tail]
      omega
    · omega
  | invalidate p => exact Nat.le_trans (hwithout p) h
  | evictOneIfFull =>
    rw [call]
    split
    · exact h
    · rw [length_tail]
      omega

end Lru

/-- The answers and the state after a list of calls. -/
def runCalls {σ : Type} (step : σ → CacheCall → Option Bytes × σ) : σ → List CacheCall → List (Option Bytes) × σ
  | s, [] => ([], s)
  | s, a :: as => ((step s a).1 :: (runCalls step (step s a).2 as).1, (runCalls step (step s a).2 as).2)

/-! ## The simulation -/

/-- A cached page with the tick of its last use. -/
structure Use where
  tick : UInt64
  page : UInt32
  bytes : Bytes

def Use.shown (u : Use) : UInt32 × Bytes := (u.page, u.bytes)

variable {x : UInt64 × UInt32} {l : List (UInt64 × UInt32)}

namespace PageCache

structure Simulates (c : PageCache) (us : List Use) : Prop where
  entries : ∀ p b t, c.entries[p]? = some (b, t) ↔ ⟨t, p, b⟩ ∈ us
  ordered : us.Pairwise (·.tick < ·.tick)
  le : ∀ u ∈ us, u.tick ≤ c.tick
  queued : ∀ u ∈ us, (u.tick, u.page) ∈ c.evictionHeap
  heap : c.evictionHeap.Pairwise (·.1 ≤ ·.1)

section
variable {c : PageCache} {u : Use} {us : List Use} {t : UInt64} {p : UInt32} {b : Bytes}

theorem Simulates.entry (h : Simulates c us) (hu : u ∈ us) : c.entries[u.page]? = some (u.bytes, u.tick) :=
  (h.entries _ _ _).2 hu

theorem Simulates.pages (h : Simulates c (u :: us)) : ∀ x ∈ us, x.page ≠ u.page := by
  intro x hx hp
  have hentry := h.entry (mem_cons_of_mem u hx)
  rw [hp, h.entry mem_cons_self] at hentry
  have hlt := rel_of_pairwise_cons h.ordered hx
  simp only [Option.some.injEq, Prod.mk.injEq] at hentry
  rw [hentry.2] at hlt
  exact UInt64.lt_irrefl _ hlt

/-- The entries of the map are these uses, each once. -/
theorem Simulates.size (h : Simulates c us) : c.entries.size = us.length := by
  have hnodup : us.Nodup := h.ordered.imp fun {a b} (hlt : a.tick < b.tick) (he : a = b) =>
    UInt64.lt_irrefl _ (he ▸ hlt)
  have hkeys : (c.entries.toList.map fun e => (⟨e.2.2, e.1, e.2.1⟩ : Use)).Nodup := by
    rw [List.Nodup, pairwise_map]
    refine ExtTreeMap.distinct_keys_toList.imp fun hne he => hne ?_
    rw [Use.mk.injEq] at he
    simp [he.2.1]
  have hperm := (perm_ext_iff_of_nodup hkeys hnodup).2 fun u => by
    rw [← h.entries, ← ExtTreeMap.mem_toList_iff_getElem?_eq_some]
    exact ⟨fun hm => by obtain ⟨e, he, rfl⟩ := mem_map.1 hm; exact he, fun hm => mem_map.2 ⟨_, hm, rfl⟩⟩
  rw [← ExtTreeMap.length_toList, ← hperm.length_eq, length_map]

theorem Simulates.find (h : Simulates c us) (p : UInt32) : Lru.find (us.map Use.shown) p = c.content p := by
  rw [Lru.find, List.find?_map, Option.map_map, content]
  cases hf : us.find? ((fun e => e.1 == p) ∘ Use.shown) with
  | some u =>
    have hp : u.page = p := by simpa [Use.shown] using List.find?_some hf
    rw [← hp, h.entry (mem_of_find?_eq_some hf)]
    rfl
  | none =>
    rw [List.find?_eq_none] at hf
    cases he : c.entries[p]? with
    | none => rfl
    | some e => exact absurd (by simp [Use.shown]) (hf _ ((h.entries p e.1 e.2).1 he))

theorem mem_heapPush {y : UInt64 × UInt32} : y ∈ heapPush x l ↔ y = x ∨ y ∈ l := by
  induction l with
  | nil => simp [heapPush]
  | cons z l ih =>
    rw [heapPush]
    split
    · simp
    · simp only [mem_cons, ih]
      tauto

theorem heapPush_ordered (h : l.Pairwise (·.1 ≤ ·.1)) : (heapPush x l).Pairwise (·.1 ≤ ·.1) := by
  induction l with
  | nil => simp [heapPush]
  | cons z l ih =>
    obtain ⟨hz, hl⟩ := pairwise_cons.1 h
    rw [heapPush]
    split
    · rename_i hle
      have hx : x.1 ≤ z.1 := by
        simp only [heapLe, Bool.or_eq_true, decide_eq_true_eq, Bool.and_eq_true, beq_iff_eq] at hle
        exact hle.elim UInt64.le_of_lt fun he => he.1 ▸ UInt64.le_refl _
      exact pairwise_cons.2 ⟨forall_mem_cons.2 ⟨hx, fun y hy => UInt64.le_trans hx (hz y hy)⟩, h⟩
    · rename_i hle
      refine pairwise_cons.2 ⟨fun y hy => ?_, ih hl⟩
      obtain rfl | hy := mem_heapPush.1 hy
      · refine UInt64.not_lt.1 fun hlt => hle ?_
        simp [heapLe, hlt]
      · exact hz y hy

theorem Simulates.drop (h : Simulates c us) (p : UInt32) : Simulates (c.invalidate p) (us.filter (·.page != p)) where
  entries q b t := by
    rw [invalidate, ExtTreeMap.getElem?_erase, mem_filter, ← h.entries]
    by_cases hq : p = q
    · simp [hq]
    · simp [hq, Ne.symm hq]
  ordered := h.ordered.filter _
  le u hu := h.le u (mem_filter.1 hu).1
  queued u hu := h.queued u (mem_filter.1 hu).1
  heap := h.heap

theorem Simulates.touch (h : Simulates c us) (ht : c.tick < t) (p : UInt32) (b : Bytes) :
    Simulates { c with tick := t, entries := c.entries.insert p (b, t), evictionHeap := heapPush (t, p) c.evictionHeap }
      (us.filter (·.page != p) ++ [⟨t, p, b⟩]) where
  entries q d s := by
    rw [ExtTreeMap.getElem?_insert, mem_append, mem_filter, ← h.entries, mem_singleton]
    by_cases hq : p = q
    · subst hq
      simp [and_comm, eq_comm]
    · simp [hq, Ne.symm hq]
  ordered := by
    refine pairwise_append.2 ⟨h.ordered.filter _, pairwise_singleton _ _, fun u hu v hv => ?_⟩
    rw [mem_singleton.1 hv]
    exact UInt64.lt_of_le_of_lt (h.le u (mem_filter.1 hu).1) ht
  le u hu := by
    obtain hu | hu := mem_append.1 hu
    · exact UInt64.le_of_lt (UInt64.lt_of_le_of_lt (h.le u (mem_filter.1 hu).1) ht)
    · rw [mem_singleton.1 hu]
      exact UInt64.le_refl t
  queued u hu := by
    refine mem_heapPush.2 ?_
    obtain hu | hu := mem_append.1 hu
    · exact .inr (h.queued u (mem_filter.1 hu).1)
    · rw [mem_singleton.1 hu]
      exact .inl rfl
  heap := heapPush_ordered h.heap

theorem Simulates.compact (h : Simulates c us) : Simulates c.compactEvictionHeap us := by
  have hpush : ∀ l acc : List (UInt64 × UInt32), (∀ x ∈ l, x ∈ l.foldl (fun h x => heapPush x h) acc) ∧
      (∀ x ∈ acc, x ∈ l.foldl (fun h x => heapPush x h) acc) ∧
      (acc.Pairwise (·.1 ≤ ·.1) → (l.foldl (fun h x => heapPush x h) acc).Pairwise (·.1 ≤ ·.1)) := by
    intro l
    induction l with
    | nil => exact fun acc => ⟨nofun, fun x hx => hx, id⟩
    | cons y l ih =>
      intro acc
      obtain ⟨hl, hacc, hord⟩ := ih (heapPush y acc)
      exact ⟨forall_mem_cons.2 ⟨hacc y (mem_heapPush.2 (.inl rfl)), hl⟩,
        fun x hx => hacc x (mem_heapPush.2 (.inr hx)), fun ho => hord (heapPush_ordered ho)⟩
  refine ⟨h.entries, h.ordered, h.le, fun u hu => (hpush _ _).1 _ ?_, (hpush _ _).2.2 List.Pairwise.nil⟩
  exact mem_map.2 ⟨(u.page, u.bytes, u.tick), ExtTreeMap.mem_toList_iff_getElem?_eq_some.2 (h.entry hu), rfl⟩

/-- Stale candidates are dropped; the first current one is the least recently
used page. -/
theorem Simulates.evictLoop {heap : List (UInt64 × UInt32)} (h : Simulates { c with evictionHeap := heap } (u :: us)) :
    ∃ heap', PageCache.evictLoop heap c = (some u.shown, { c.invalidate u.page with evictionHeap := heap' }) ∧
      Simulates { c.invalidate u.page with evictionHeap := heap' } us := by
  induction heap with
  | nil => exact nomatch h.queued u mem_cons_self
  | cons x heap ih =>
    obtain ⟨t, p⟩ := x
    obtain ⟨hle, hheap⟩ := pairwise_cons.1 h.heap
    have hentry : c.entries[u.page]? = some (u.bytes, u.tick) := h.entry mem_cons_self
    by_cases hlive : ∃ b, c.entries[p]? = some (b, t)
    · obtain ⟨b, hb⟩ := hlive
      have hlt : ∀ y ∈ us, u.tick < y.tick := fun y hy => rel_of_pairwise_cons h.ordered hy
      have hu : u = ⟨t, p, b⟩ := by
        obtain he | he := mem_cons.1 ((h.entries p b t).1 hb)
        · exact he.symm
        · refine absurd (hlt _ he) (UInt64.not_lt.2 ?_)
          obtain hq | hq := mem_cons.1 (h.queued u mem_cons_self)
          · rw [(Prod.mk.inj hq).1]
            exact UInt64.le_refl t
          · exact hle _ hq
      subst hu
      refine ⟨heap, by simp only [PageCache.evictLoop, hb, if_true]; rfl, ?_⟩
      have hd := h.drop p
      have hfilter : (⟨t, p, b⟩ :: us : List Use).filter (·.page != p) = us := by
        rw [filter_cons_of_neg (by simp), filter_eq_self]
        exact fun y hy => by simpa using h.pages y hy
      rw [hfilter] at hd
      refine ⟨hd.entries, hd.ordered, hd.le, fun y hy => ?_, hheap⟩
      obtain hq | hq := mem_cons.1 (hd.queued y hy)
      · have hty := hlt y hy
        rw [(Prod.mk.inj hq).1] at hty
        exact absurd hty (UInt64.lt_irrefl t)
      · exact hq
    · have hstep : PageCache.evictLoop ((t, p) :: heap) c = PageCache.evictLoop heap c := by
        rw [PageCache.evictLoop]
        split
        · rename_i b cur hb
          have hne : cur ≠ t := fun he => hlive ⟨b, by rw [hb, he]⟩
          rw [if_neg hne]
        · rfl
      rw [hstep]
      refine ih ⟨h.entries, h.ordered, h.le, fun y hy => ?_, hheap⟩
      obtain hq | hq := mem_cons.1 (h.queued y hy)
      · obtain ⟨ht, hp⟩ := Prod.mk.inj hq
        exact absurd ⟨y.bytes, ht ▸ hp ▸ h.entry hy⟩ hlive
      · exact hq

theorem Simulates.evictOne (h : Simulates c (u :: us)) :
    ∃ c', c.evictOne = (some u.shown, c') ∧ Simulates c' us ∧ c'.capacity = c.capacity ∧ c'.tick = c.tick := by
  obtain ⟨heap, hevict, hsim⟩ := h.evictLoop
  exact ⟨_, hevict, hsim, rfl, rfl⟩

/-! ## Calls -/

theorem shown_use (us : List Use) (u : Use) :
    (us.filter (·.page != u.page) ++ [u]).map Use.shown = Lru.use (us.map Use.shown) u.page u.bytes := by
  rw [Lru.use, Lru.without, map_append, filter_map]
  rfl

/-- What a call keeps besides the simulation. -/
structure Steps (c : PageCache) (out : Option Bytes × PageCache) (ref : Option Bytes × Lru) : Prop where
  answer : out.1 = ref.1
  simulated : ∃ us, us.map Use.shown = ref.2 ∧ Simulates out.2 us
  capacity : out.2.capacity = c.capacity
  tick : out.2.tick.toNat ≤ c.tick.toNat + 1

theorem Simulates.call (h : Simulates c us) (hcap : 1 ≤ c.capacity) (htick : c.tick.toNat + 1 < 2 ^ 64) (a : CacheCall) :
    Steps c (c.call a) (Lru.call c.capacity (us.map Use.shown) a) := by
  have hnext : (c.tick + 1).toNat = c.tick.toNat + 1 := by
    rw [UInt64.toNat_add]
    exact Nat.mod_eq_of_lt htick
  have hlt : c.tick < c.tick + 1 := UInt64.lt_iff_toNat_lt.2 (by omega)
  cases a with
  | get p =>
    rw [Lru.call, h.find, content, PageCache.call, PageCache.get]
    cases he : c.entries[p]? with
    | none =>
      refine ⟨rfl, ⟨us, rfl, h.entries, h.ordered, fun u hu => ?_, h.queued, h.heap⟩, rfl, Nat.le_of_eq hnext⟩
      exact UInt64.le_of_lt (UInt64.lt_of_le_of_lt (h.le u hu) hlt)
    | some e =>
      have htouch := h.touch hlt p e.1
      dsimp only [Option.map_some]
      split
      · exact ⟨rfl, ⟨_, shown_use us ⟨_, p, e.1⟩, htouch.compact⟩, rfl, Nat.le_of_eq hnext⟩
      · exact ⟨rfl, ⟨_, shown_use us ⟨_, p, e.1⟩, htouch⟩, rfl, Nat.le_of_eq hnext⟩
  | insert p b =>
    have htouch := h.touch hlt p b
    have hshown := shown_use us ⟨c.tick + 1, p, b⟩
    have hsize := htouch.size
    rw [← length_map (f := Use.shown), hshown] at hsize
    rw [Lru.call, PageCache.call, PageCache.insert]
    dsimp only at hsize ⊢
    rw [hsize]
    split
    · cases hus : us.filter (·.page != p) ++ [⟨c.tick + 1, p, b⟩] with
      | nil => exact absurd hus (by simp)
      | cons v vs =>
        rw [hus] at htouch hshown
        obtain ⟨c', hevict, hsim, hc, ht⟩ := htouch.evictOne
        rw [hevict, ← hshown]
        exact ⟨rfl, ⟨vs, rfl, hsim⟩, hc, Nat.le_of_eq ((congrArg UInt64.toNat ht).trans hnext)⟩
    · exact ⟨rfl, ⟨_, hshown, htouch⟩, rfl, Nat.le_of_eq hnext⟩
  | invalidate p =>
    refine ⟨rfl, ⟨_, ?_, h.drop p⟩, rfl, Nat.le_succ _⟩
    rw [Lru.call, Lru.without, filter_map]
    rfl
  | evictOneIfFull =>
    rw [Lru.call, PageCache.call, PageCache.evictOneIfFull, h.size, length_map]
    split
    · exact ⟨rfl, ⟨us, rfl, h⟩, rfl, Nat.le_succ _⟩
    · cases us with
      | nil => exact absurd hcap (by simp_all)
      | cons v vs =>
        obtain ⟨c', hevict, hsim, hc, ht⟩ := h.evictOne
        rw [hevict]
        exact ⟨rfl, ⟨vs, rfl, hsim⟩, hc, by rw [ht]; exact Nat.le_succ _⟩

theorem Simulates.run (calls : List CacheCall) (h : Simulates c us) (hcap : 1 ≤ c.capacity)
    (hlen : us.length ≤ c.capacity) (htick : c.tick.toNat + calls.length < 2 ^ 64) :
    (runCalls PageCache.call c calls).1 = (runCalls (Lru.call c.capacity) (us.map Use.shown) calls).1 ∧
      ∃ vs, vs.map Use.shown = (runCalls (Lru.call c.capacity) (us.map Use.shown) calls).2 ∧
        Simulates (runCalls PageCache.call c calls).2 vs ∧ vs.length ≤ c.capacity := by
  induction calls generalizing c us with
  | nil => exact ⟨rfl, us, rfl, h, hlen⟩
  | cons a calls ih =>
    rw [length_cons] at htick
    obtain ⟨hanswer, ⟨vs, hvs, hsim⟩, hc, ht⟩ := h.call hcap (by omega) a
    have hshort : vs.length ≤ c.capacity := by
      rw [← length_map (f := Use.shown), hvs]
      exact Lru.call_length (by rwa [length_map]) a
    obtain ⟨hans, hend⟩ := ih hsim (by rwa [hc]) (by rwa [hc]) (by omega)
    rw [hc, hvs] at hans hend
    rw [runCalls, runCalls]
    exact ⟨congrArg₂ List.cons hanswer hans, hend⟩

end

/-- **The page cache is an LRU cache.** For every capacity of at least one
and fewer than 2^64 calls: the answers are those of the reference, and so are
the pages held, at most `capacity`. -/
theorem lru_refined (capacity : Nat) (hcap : 1 ≤ capacity) (calls : List CacheCall) (hcalls : calls.length < 2 ^ 64) :
    (runCalls PageCache.call (new capacity) calls).1 = (runCalls (Lru.call capacity) [] calls).1 ∧
      (∀ p, (runCalls PageCache.call (new capacity) calls).2.content p =
        (runCalls (Lru.call capacity) [] calls).2.find p) ∧
      (runCalls PageCache.call (new capacity) calls).2.entries.size = (runCalls (Lru.call capacity) [] calls).2.length ∧
      (runCalls PageCache.call (new capacity) calls).2.entries.size ≤ capacity := by
  have hnew : Simulates (new capacity) [] := ⟨by simp [new], .nil, nofun, nofun, .nil⟩
  obtain ⟨hanswers, us, hus, hsim, hlen⟩ := hnew.run calls hcap (Nat.zero_le _) (by simpa [new] using hcalls)
  refine ⟨hanswers, fun p => ?_, ?_, hsim.size ▸ hlen⟩
  · rw [← hsim.find, hus]
    rfl
  · rw [hsim.size, ← length_map (f := Use.shown), hus]
    rfl

/-- Page 1 is used again, so page 2 goes when page 3 comes. -/
theorem second_page_evicted :
    (runCalls PageCache.call (new 2) [.insert 1 [10], .insert 2 [20], .get 1, .insert 3 [30], .get 2, .get 1]).1 =
      [none, none, some [10], none, none, some [10]] :=
  (lru_refined 2 (by decide) _ (by decide)).1.trans (by decide)

end PageCache
end DbStorage.Pager
