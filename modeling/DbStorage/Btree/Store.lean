import DbStorage.Btree.Space
import DbStorage.Pager.Heap

/-!
# The pages that b-trees own

`Owns ps v used`: of the pages the store shows as `v`, those in `used` are
in use, page 1 among them, and all others up to the header's page count are
on the freelist. Page 1 starts with the database header, which allocations
change; `View.body` shows the pages without it. `Kept keep v v'` says that
the pages in `keep` show the same bodies and that the header differs in its
allocation fields only.

Results: what allocating and editing a page do to the pages
owned (`allocatePage_meets`, `onPage_meets`).
-/
namespace DbStorage.Btree
open Bytes Pager

/-! ## Page 1 and its header -/

/-- The content of a page, with zeros for the database header. -/
def clearHeader (p : UInt32) (b : Bytes) : Bytes := if p = 1 then List.replicate 100 0 ++ b.drop 100 else b

/-- What each page holds behind the database header. -/
def body (v : View) : View := fun p => (v p).map (clearHeader p)

/-- The header without the page count and the freelist's fields. -/
def head (v : View) : Option (Bytes × Bytes) := (v 1).map fun h => (slice h 0 28, slice h 40 60)

theorem clearHeader_eq {b b' : Bytes} (h : SameButFields b b') : clearHeader 1 b' = clearHeader 1 b := by
  have hs := h.slice 100 (b.length - 100) (.inr (by decide))
  have ht : ∀ c : Bytes, c.length = b.length → slice c 100 (b.length - 100) = c.drop 100 := by
    intro c hc
    rw [slice, List.take_of_length_le]
    rw [List.length_drop]
    omega
  rw [ht b rfl, ht b' h.length] at hs
  rw [clearHeader, clearHeader, if_pos rfl, if_pos rfl, hs]

/-! ## Frames -/

/-- The pages in `keep` show the same bodies, and the header differs in its
allocation fields only. -/
structure Kept (keep : Finset UInt32) (v v' : View) : Prop where
  body : ∀ p ∈ keep, body v' p = body v p
  head : head v' = head v

section
variable {keep keep' : Finset UInt32} {v v' v'' : View}

theorem Kept.refl (keep : Finset UInt32) (v : View) : Kept keep v v := ⟨fun _ _ => rfl, rfl⟩

theorem Kept.trans (h : Kept keep v v') (h' : Kept keep v' v'') : Kept keep v v'' :=
  ⟨fun p hp => (h'.body p hp).trans (h.body p hp), h'.head.trans h.head⟩

theorem Kept.mono (h : Kept keep v v') (hk : keep' ⊆ keep) : Kept keep' v v' :=
  ⟨fun p hp => h.body p (hk hp), h.head⟩

end

/-! ## Owned pages -/

/-- The pages in use, page 1 among them; the others are free. -/
structure Owns (ps : UInt32) (v : View) (used : Finset UInt32) : Prop where
  one : 1 ∈ used
  heap : ∃ n free, Heap ps v n (used.erase 1).toList free

section
variable {ps : UInt32} {v v' : View} {used : Finset UInt32} {p : UInt32}

theorem Owns.page (h : Owns ps v used) (hp : p ∈ used) : ∃ b, v p = some b ∧ b.length = ps.toNat := by
  obtain ⟨n, free, hh⟩ := h.heap
  by_cases h1 : p = 1
  · rw [h1]
    exact hh.page 1 (by decide) hh.nonempty
  · exact hh.mem_page (List.mem_append_left _ (Finset.mem_toList.2 (Finset.mem_erase.2 ⟨h1, hp⟩)))

theorem Owns.pageSize (h : Owns ps v used) : 512 ≤ ps.toNat ∧ ps.toNat ≤ 65536 := by
  obtain ⟨n, free, hh⟩ := h.heap
  exact hh.pageSize_ge

theorem body_of_ne_one (v : View) (hp : p ≠ 1) : body v p = v p := by
  rw [body]
  have : clearHeader p = id := funext fun b => if_neg hp
  rw [this, Option.map_id]
  rfl

theorem kept_of_heapFrame {used' : List UInt32} (hf : HeapFrame v v' used') {b : Bytes} (hb : v 1 = some b)
    (hu : ∀ p ∈ used, p ≠ 1 → p ∈ used') : Kept used v v' := by
  obtain ⟨b', hb', hs⟩ := hf.header b hb
  refine ⟨fun p hp => ?_, ?_⟩
  · by_cases h1 : p = 1
    · rw [h1, body, body, hb, hb', Option.map_some, Option.map_some, clearHeader_eq hs]
    · rw [body_of_ne_one _ h1, body_of_ne_one _ h1]
      exact hf.used p (hu p hp h1)
  · rw [head, head, hb, hb', Option.map_some, Option.map_some, hs.slice 0 28 (.inl (by decide)),
      hs.slice 40 60 (.inr (by decide))]

theorem erase_insert_toList (hp : p ∉ used) (h1 : p ≠ 1) :
    ((insert p used).erase 1).toList.Perm (p :: (used.erase 1).toList) := by
  rw [Finset.erase_insert_of_ne h1]
  exact Finset.toList_insert fun h => hp (Finset.mem_of_mem_erase h)

/-- As long as fewer than `2 ^ 32 - 1` pages are in use there is a page to
allocate. -/
theorem Owns.room {n : UInt32} {free : List UInt32} (h1 : 1 ∈ used) (hh : Heap ps v n (used.erase 1).toList free)
    (hroom : used.card + 1 < 2 ^ 32) : free = [] → n ≠ 0xffffffff := by
  rintro rfl rfl
  have hlen := hh.length_eq
  rw [List.append_nil, Finset.length_toList, Finset.card_erase_add_one h1] at hlen
  rw [hlen] at hroom
  exact absurd hroom (by decide)

end

section
variable {σ : Type} {O : PageOps σ} {A : σ → View → Prop} {T : Prop} {ps : UInt32} {v : View}
  {used : Finset UInt32} {p : UInt32}

theorem allocatePage_meets (L : O.Lawful A) (hO : O.pageSize = ps) (h : Owns ps v used)
    (hroom : used.card + 1 < 2 ^ 32) :
    Action.Meets A T (pagerCall O.allocatePage) v fun p v' =>
      p ∉ used ∧ p ≠ 0 ∧ Owns ps v' (insert p used) ∧ Kept used v v' := by
  obtain ⟨n, free, hh⟩ := h.heap
  obtain ⟨b, hb, -⟩ := h.page h.one
  obtain ⟨p, v', n', free', hrun, hal⟩ := hh.allocatePage L hO (Owns.room h.one hh hroom)
  have hcov := (hal.heap.cover p).1 (List.mem_append_left _ List.mem_cons_self)
  have h0 : p ≠ 0 := by
    rintro rfl
    exact absurd hcov.1 (by decide)
  have h1 : p ≠ 1 := hal.heap.ne_one (List.mem_append_left _ List.mem_cons_self)
  have hp : p ∉ used := fun hm => (List.nodup_cons.1 hal.heap.nodup).1
    (List.mem_append_left _ (Finset.mem_toList.2 (Finset.mem_erase.2 ⟨h1, hm⟩)))
  refine (hrun.mapError BtreeError.pager).meets ⟨hp, h0, ⟨Finset.mem_insert_of_mem h.one, n', free', ?_⟩, ?_⟩
  · exact hal.heap.perm (erase_insert_toList hp h1)
  · exact kept_of_heapFrame hal.frame hb fun q hq hq1 => Finset.mem_toList.2 (Finset.mem_erase.2 ⟨hq1, hq⟩)

theorem getPage_runs (L : O.Lawful A) {b : Bytes} (hb : v p = some b) :
    Action.Runs A (getPage O p) v (.ok b) v := (L.getPageMut hb).mapError BtreeError.pager

/-- A page in use may be overwritten behind the database header. -/
theorem Owns.set (h : Owns ps v used) (hp : p ∈ used) {b b' : Bytes} (hb : v p = some b)
    (hs : SameOutside (page1HeaderStart p) b.length b b') :
    Owns ps (v.set p b') used ∧ Kept (used.erase p) v (v.set p b') := by
  obtain ⟨n, free, hh⟩ := h.heap
  obtain ⟨c, hc, hl⟩ := h.page hp
  rw [hb] at hc
  cases hc
  have hps := h.pageSize
  have hl' : b'.length = ps.toNat := hs.length.trans hl
  have hbody : ∀ q ∈ used.erase p, body (v.set p b') q = body v q := fun q hq => by
    rw [body, body, View.set_of_ne _ _ (Finset.ne_of_mem_erase hq)]
  by_cases h1 : p = 1
  · subst h1
    rw [page1HeaderStart, if_pos rfl] at hs
    obtain ⟨c, trunk, hc, hf, hch⟩ := hh.header
    rw [hb] at hc
    cases hc
    have hlow : ∀ o d, o + d.length ≤ 100 → Holds b o d → Holds b' o d := fun o d hd hx => hx.same hs (.inl hd)
    have hf' : HeaderFields b' n trunk (UInt32.ofNat free.length) :=
      ⟨hlow _ _ (by rw [be32_length]; decide) hf.pageCount, hlow _ _ (by rw [be32_length]; decide) hf.trunk,
        hlow _ _ (by rw [be32_length]; decide) hf.freeCount⟩
    refine ⟨⟨h.one, n, free, hh.rebuild (.refl _) ((View.Sized.refl ps v).set 1 hl') (View.set_self _ _ _) hf' ?_⟩,
      hbody, ?_⟩
    · exact hch.congr fun q hq => View.set_of_ne _ _ (hh.ne_one (List.mem_append_right _ hq))
    · rw [head, head, View.set_self, hb, Option.map_some, Option.map_some, hs.slice 0 28 (.inl (by decide)),
        hs.slice 40 60 (.inl (by decide))]
  · refine ⟨⟨h.one, n, free, hh.put (Finset.mem_toList.2 (Finset.mem_erase.2 ⟨h1, hp⟩)) hl'⟩, hbody, ?_⟩
    rw [head, head, View.set_of_ne _ _ (Ne.symm h1)]

theorem onPage_meets (L : O.Lawful A) (h : Owns ps v used) (hp : p ∈ used) {b : Bytes} (hb : v p = some b)
    {α : Type} {f : Edit α} {Q : α → Bytes → Prop}
    (hf : Edit.Does T f b fun a b' => SameOutside (page1HeaderStart p) b.length b b' ∧ Q a b') :
    Action.Meets A T (onPage O p f) v fun a v' => ∃ b', body v' p = some (clearHeader p b') ∧ Q a b' ∧
      b'.length = ps.toNat ∧ Owns ps v' used ∧ Kept (used.erase p) v v' := by
  obtain ⟨c, hc, hl⟩ := h.page hp
  rw [hb] at hc
  cases hc
  refine (getPage_runs L hb).then ?_
  have hd := hf b rfl
  revert hd
  dsimp only
  cases f.exec b with
  | mk r b' =>
    cases r with
    | error e =>
      intro ht
      exact ((L.putPage v p b').mapError BtreeError.pager).then (.throw ht)
    | ok a =>
      rintro ⟨_, rfl, hs, hq⟩
      refine ((L.putPage v p b').mapError BtreeError.pager).then (.pure ⟨b', ?_, hq, hs.length.trans hl, h.set hp hb hs⟩)
      rw [body, View.set_self]
      rfl

end

end DbStorage.Btree
