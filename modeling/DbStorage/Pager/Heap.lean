import DbStorage.Core.LTS
import DbStorage.Pager.Store

/-!
# Used and free pages

The freelist is a chain of trunk pages that starts in the header on page 1;
each trunk lists free pages (`FreeChain`). `Heap v n used free` says that
the pages 2 to the header's page count `n` are split into the pages in use
and the pages on that chain.

Results: `Heap.allocatePage` and `Heap.deallocatePage` (each moves one page
between the two sides and changes no other page in use), and
`freelist_invariant`, over every sequence of calls on a connection.
-/
namespace DbStorage.Pager
open Bytes Vfs Wal Std List

/-! ## Fields and trunk pages -/

variable {b tail c : Bytes} {o : Nat} {t p : UInt32} {rest : List UInt32} {page : TrunkPage}

theorem readBeU32_of_holds {x : UInt32} (h : Holds b o (be32 x)) : readBeU32 b o = .ok x := by
  have hr := h.getRange (cons_ne_nil _ _)
  rw [be32_length] at hr
  rw [readBeU32, hr]
  exact congrArg Except.ok (ofBe32_be32 x)

theorem writeBeU32_ok (x : UInt32) (h : o + 4 ≤ b.length) : writeBeU32 b o x = .ok (writeAt b (be32 x) o) := if_pos h

/-- The bytes of a trunk page before its unused tail. -/
def TrunkPage.bytes (t : TrunkPage) : Bytes :=
  be32 t.nextTrunk ++ (be32 (UInt32.ofNat t.leaves.length) ++ t.leaves.flatMap be32)

theorem flatMap_be32_length (ls : List UInt32) : (ls.flatMap be32).length = 4 * ls.length := by
  simp [length_flatMap, Nat.mul_comm]

theorem TrunkPage.bytes_length (t : TrunkPage) : t.bytes.length = 8 + 4 * t.leaves.length := by
  simp only [TrunkPage.bytes, length_append, be32_length, flatMap_be32_length]
  omega

theorem readLeaves_eq (ls : List UInt32) (pre tail : Bytes) (i : Nat) (h : pre.length = 8 + i * 4) :
    readLeaves (pre ++ (ls.flatMap be32 ++ tail)) ls.length i = .ok ls := by
  induction ls generalizing pre i with
  | nil => rfl
  | cons l ls ih =>
    have hread : readBeU32 (pre ++ (be32 l ++ (ls.flatMap be32 ++ tail))) (8 + i * 4) = .ok l :=
      readBeU32_of_holds (h ▸ holds_append_right _ _ _)
    have hrest := ih (pre ++ be32 l) (i + 1) (by rw [length_append, be32_length]; omega)
    rw [append_assoc] at hrest
    simp only [readLeaves, length_cons, flatMap_cons, append_assoc, hread, hrest, bind,
      Except.bind]

variable {leaves : List UInt32} {count ps : UInt32}

theorem parse_of_fields {next : UInt32} (h0 : readBeU32 b 0 = .ok next) (h4 : readBeU32 b 4 = .ok count)
    (hl : readLeaves b (min count.toNat ((b.length - 8) / 4)) 0 = .ok leaves) :
    TrunkPage.parse b = .ok ⟨next, leaves⟩ := by
  simp only [TrunkPage.parse, h0, h4, hl, bind, Except.bind]

theorem parse_trunk (t : TrunkPage) (tail : Bytes) (h : (t.bytes ++ tail).length < 2 ^ 32) :
    TrunkPage.parse (t.bytes ++ tail) = .ok t := by
  have hcount : min (UInt32.ofNat t.leaves.length).toNat (((t.bytes ++ tail).length - 8) / 4) =
      t.leaves.length := by
    rw [length_append, TrunkPage.bytes_length] at h ⊢
    rw [UInt32.toNat_ofNat', Nat.mod_eq_of_lt (by omega)]
    omega
  have hnext := holds_append_right [] (be32 t.nextTrunk)
    (be32 (UInt32.ofNat t.leaves.length) ++ t.leaves.flatMap be32 ++ tail)
  rw [nil_append, length_nil, ← append_assoc] at hnext
  have hlen := holds_append_right (be32 t.nextTrunk) (be32 (UInt32.ofNat t.leaves.length))
    (t.leaves.flatMap be32 ++ tail)
  rw [be32_length, ← append_assoc (be32 (UInt32.ofNat _)), ← append_assoc] at hlen
  have hl := readLeaves_eq t.leaves (be32 t.nextTrunk ++ be32 (UInt32.ofNat t.leaves.length)) tail 0
    (by rw [length_append, be32_length, be32_length])
  have hb : t.bytes ++ tail = be32 t.nextTrunk ++ be32 (UInt32.ofNat t.leaves.length) ++
      (t.leaves.flatMap be32 ++ tail) := by simp only [TrunkPage.bytes, append_assoc]
  refine parse_of_fields (readBeU32_of_holds hnext) (readBeU32_of_holds hlen) ?_
  rw [hcount, hb, hl]

theorem writeLeaves_eq (ls : List UInt32) (pre tail : Bytes) (i : Nat) (h : pre.length = 8 + i * 4)
    (hl : 4 * ls.length ≤ tail.length) :
    writeLeaves (pre ++ tail) i ls = .ok (pre ++ (ls.flatMap be32 ++ tail.drop (4 * ls.length))) := by
  induction ls generalizing pre tail i with
  | nil => simp [writeLeaves]
  | cons l ls ih =>
    rw [length_cons] at hl
    have hw : writeBeU32 (pre ++ tail) (8 + i * 4) l = .ok (pre ++ (be32 l ++ tail.drop 4)) := by
      rw [writeBeU32_ok _ (by rw [length_append]; omega), ← h, writeAt_append, be32_length]
    have hrest := ih (pre ++ be32 l) (tail.drop 4) (i + 1)
      (by rw [length_append, be32_length]; omega) (by rw [length_drop]; omega)
    rw [append_assoc] at hrest
    simp only [writeLeaves, hw, hrest, bind, Except.bind, flatMap_cons, append_assoc,
      drop_drop, length_cons]
    rw [Nat.mul_add, Nat.add_comm]

/-- A trunk page that fits is written over the old content of the page. -/
theorem write_trunk (t : TrunkPage) (b : Bytes) (h : 8 + 4 * t.leaves.length ≤ b.length) :
    ∃ tail, t.write b = .ok (t.bytes ++ tail) ∧ (t.bytes ++ tail).length = b.length := by
  have hlen : (t.bytes ++ List.replicate (b.length - (8 + 4 * t.leaves.length)) 0).length = b.length := by
    rw [length_append, TrunkPage.bytes_length, length_replicate]
    omega
  refine ⟨_, ?_, hlen⟩
  have h0 : writeBeU32 b 0 t.nextTrunk = .ok (be32 t.nextTrunk ++ b.drop 4) := by
    rw [writeBeU32_ok _ (by omega)]
    exact congrArg Except.ok (writeAt_append [] b _)
  have h4 : ∀ x, writeBeU32 (be32 t.nextTrunk ++ b.drop 4) 4 x =
      .ok (be32 t.nextTrunk ++ (be32 x ++ b.drop 8)) := by
    intro x
    rw [writeBeU32_ok _ (by rw [length_append, be32_length, length_drop]; omega)]
    have hw := writeAt_append (be32 t.nextTrunk) (b.drop 4) (be32 x)
    rw [be32_length, be32_length, drop_drop] at hw
    exact congrArg Except.ok hw
  have hl := writeLeaves_eq t.leaves (be32 t.nextTrunk ++ be32 (UInt32.ofNat t.leaves.length)) (b.drop 8) 0
    (by rw [length_append, be32_length, be32_length]) (by rw [length_drop]; omega)
  rw [append_assoc] at hl
  simp only [TrunkPage.write, h0, h4, hl, bind, Except.bind]
  have hb : ∀ d : Bytes, be32 t.nextTrunk ++ be32 (UInt32.ofNat t.leaves.length) ++
      (t.leaves.flatMap be32 ++ d) = t.bytes ++ d := by
    intro d; simp only [TrunkPage.bytes, append_assoc]
  rw [hb, Nat.mul_comm t.leaves.length 4, ← TrunkPage.bytes_length, take_left']
  · congr 3
    rw [length_append, drop_drop, length_drop, TrunkPage.bytes_length]
    omega
  · rfl

/-! ## The freelist -/

/-- The chain of trunk pages that starts at `trunk`, and the pages on it. -/
inductive FreeChain (v : View) : UInt32 → List UInt32 → Prop where
  | nil : FreeChain v 0 []
  | cons {t : UInt32} {page : TrunkPage} {tail : Bytes} {rest : List UInt32} : t ≠ 0 →
      v t = some (page.bytes ++ tail) → FreeChain v page.nextTrunk rest →
      FreeChain v t (t :: (page.leaves ++ rest))

theorem FreeChain.trunk {v : View} {next : UInt32} (ht : t ≠ 0)
    (hp : v t = some (TrunkPage.bytes ⟨next, leaves⟩ ++ tail)) (hc : FreeChain v next rest) :
    FreeChain v t (t :: (leaves ++ rest)) := .cons ht hp hc

theorem FreeChain.congr {v v' : View} {free : List UInt32} (h : FreeChain v t free) (hv : ∀ p ∈ free, v' p = v p) :
    FreeChain v' t free := by
  induction h with
  | nil => exact .nil
  | cons ht hp _ ih =>
    refine .cons ht ((hv _ mem_cons_self).trans hp) (ih fun p hm => hv p ?_)
    exact mem_cons_of_mem _ (mem_append_right _ hm)

/-- The header's page count, first trunk and number of free pages. -/
structure HeaderFields (h : Bytes) (n trunk count : UInt32) : Prop where
  pageCount : Holds h pageCountOffset (be32 n)
  trunk : Holds h freelistTrunkPageOffset (be32 trunk)
  freeCount : Holds h freelistPageCountOffset (be32 count)

/-- Only the header's allocation fields may differ. -/
structure SameButFields (h h' : Bytes) : Prop where
  length : h'.length = h.length
  slice : ∀ o len, o + len ≤ pageCountOffset ∨ freelistPageCountOffset + 4 ≤ o → slice h' o len = slice h o len

theorem SameButFields.trans {a : Bytes} (h : SameButFields a b) (h' : SameButFields b c) :
    SameButFields a c :=
  ⟨h'.length.trans h.length, fun o len ho => (h'.slice o len ho).trans (h.slice o len ho)⟩

theorem sameButFields_write {h : Bytes} (x : UInt32) (hl : 40 ≤ h.length)
    (ho : pageCountOffset ≤ o ∧ o ≤ freelistPageCountOffset) : SameButFields h (writeAt h (be32 x) o) := by
  simp only [pageCountOffset, freelistPageCountOffset] at ho
  refine ⟨by rw [writeAt_length, be32_length]; omega, fun p len hp => ?_⟩
  simp only [pageCountOffset, freelistPageCountOffset] at hp
  rcases hp with hp | hp
  · exact slice_writeAt_before _ _ _ _ _ (by omega) (by omega)
  · exact slice_writeAt_after _ _ _ _ _ (by rw [be32_length]; omega)

section
variable {h : Bytes} {n trunk count : UInt32}

theorem HeaderFields.setPageCount (hf : HeaderFields h n trunk count) (n' : UInt32) :
    HeaderFields (writeAt h (be32 n') pageCountOffset) n' trunk count :=
  ⟨holds_writeAt _ _ _, hf.trunk.writeAt (.inr (Nat.le_refl _)),
    hf.freeCount.writeAt (.inr (by rw [be32_length]; decide))⟩

theorem HeaderFields.setFreelist (hf : HeaderFields h n trunk count) (trunk' count' : UInt32) :
    HeaderFields (writeAt (writeAt h (be32 trunk') freelistTrunkPageOffset) (be32 count') freelistPageCountOffset)
      n trunk' count' :=
  ⟨(hf.pageCount.writeAt (.inl (Nat.le_refl _))).writeAt (.inl (by rw [be32_length]; decide)),
    (holds_writeAt _ _ _).writeAt (.inl (Nat.le_refl _)), holds_writeAt _ _ _⟩

end

/-- The pages 2 to `n` of the database are split into the pages in use and
the pages on the freelist, and each appears once. -/
structure Heap (ps : UInt32) (v : View) (n : UInt32) (used free : List UInt32) : Prop where
  size : validPageSize ps
  page : ∀ p : UInt32, 1 ≤ p.toNat → p.toNat ≤ n.toNat → ∃ b, v p = some b ∧ b.length = ps.toNat
  nonempty : 1 ≤ n.toNat
  header : ∃ h trunk, v 1 = some h ∧ HeaderFields h n trunk (UInt32.ofNat free.length) ∧ FreeChain v trunk free
  nodup : (used ++ free).Nodup
  cover : ∀ p : UInt32, p ∈ used ++ free ↔ 2 ≤ p.toNat ∧ p.toNat ≤ n.toNat

/-- Every page of `v` is still there, with a content of the page's size. -/
def View.Sized (ps : UInt32) (v v' : View) : Prop :=
  ∀ p b, v p = some b → b.length = ps.toNat → ∃ b', v' p = some b' ∧ b'.length = ps.toNat

theorem View.Sized.refl (ps : UInt32) (v : View) : v.Sized ps v := fun _ b hb hl => ⟨b, hb, hl⟩

theorem View.Sized.set {v v' : View} (h : v.Sized ps v') (p : UInt32) (hb : b.length = ps.toNat) :
    v.Sized ps (v'.set p b) := by
  intro q c hc hl
  by_cases hq : q = p
  · exact ⟨b, by rw [hq, View.set_self], hb⟩
  · rw [View.set_of_ne _ _ hq]
    exact h q c hc hl

/-- What an allocation or deallocation leaves alone. -/
structure HeapFrame (v v' : View) (used : List UInt32) : Prop where
  used : ∀ p ∈ used, v' p = v p
  header : ∀ h, v 1 = some h → ∃ h', v' 1 = some h' ∧ SameButFields h h'

namespace Heap
variable {σ : Type} {O : PageOps σ} {A : σ → View → Prop} {ps n : UInt32} {v v' : View}
  {used used' free free' : List UInt32}

theorem pageSize_ge (h : Heap ps v n used free) : 512 ≤ ps.toNat ∧ ps.toNat ≤ 65536 := by
  have hv := h.size
  simp only [validPageSize, not_or, UInt32.lt_iff_toNat_lt, gt_iff_lt] at hv
  have h1 : (512 : UInt32).toNat = 512 := rfl
  have h2 : (65536 : UInt32).toNat = 65536 := rfl
  omega

theorem ne_one (h : Heap ps v n used free) (hp : p ∈ used ++ free) : p ≠ 1 := by
  rintro rfl
  have := ((h.cover 1).1 hp).1
  have h1 : (1 : UInt32).toNat = 1 := rfl
  omega

theorem mem_page (h : Heap ps v n used free) (hp : p ∈ used ++ free) : ∃ b, v p = some b ∧ b.length = ps.toNat := by
  have hc := (h.cover p).1 hp
  exact h.page p (by omega) hc.2

theorem disjoint (h : Heap ps v n used free) (hp : p ∈ used) : p ∉ free :=
  (nodup_append'.1 h.nodup).2.2 hp

theorem header_length (h : Heap ps v n used free) (hb : v 1 = some b) : b.length = ps.toNat := by
  obtain ⟨c, hc, hl⟩ := h.page 1 (by decide) h.nonempty
  rw [hb] at hc
  cases hc
  exact hl

/-- Page 1 and the pages counted are the `n` pages of the database. -/
theorem length_eq (h : Heap ps v n used free) : (used ++ free).length + 1 = n.toNat := by
  have hnd : ((used ++ free).map UInt32.toNat).Nodup :=
    h.nodup.map fun a b hab => UInt32.toNat_inj.1 hab
  have hperm : ((used ++ free).map UInt32.toNat).Perm (List.range' 2 (n.toNat - 1)) := by
    refine (perm_ext_iff_of_nodup hnd nodup_range').2 fun x => ?_
    have hlt := n.toNat_lt
    rw [mem_map, mem_range'_1]
    constructor
    · rintro ⟨p, hp, rfl⟩
      have := (h.cover p).1 hp
      omega
    · intro hx
      have hx' : (UInt32.ofNat x).toNat = x := by rw [UInt32.toNat_ofNat', Nat.mod_eq_of_lt (by omega)]
      exact ⟨UInt32.ofNat x, (h.cover _).2 (by omega), hx'⟩
  have hle := hperm.length_eq
  rw [length_map, length_range'] at hle
  have := h.nonempty
  omega

/-- Fewer than `n` pages are counted, so the counter cannot wrap. -/
theorem length_lt (h : Heap ps v n used free) : (used ++ free).length < n.toNat := by
  have := h.length_eq
  omega

/-- The same pages with another split, header and free chain. -/
theorem rebuild (h : Heap ps v n used free) (hp : (used' ++ free').Perm (used ++ free)) (hv : v.Sized ps v')
    {trunk : UInt32} (hb : v' 1 = some b) (hf : HeaderFields b n trunk (UInt32.ofNat free'.length))
    (hc : FreeChain v' trunk free') : Heap ps v' n used' free' where
  size := h.size
  page p h1 h2 := by
    obtain ⟨c, hc, hl⟩ := h.page p h1 h2
    exact hv p c hc hl
  nonempty := h.nonempty
  header := ⟨b, trunk, hb, hf, hc⟩
  nodup := hp.nodup_iff.2 h.nodup
  cover p := hp.mem_iff.trans (h.cover p)

theorem perm (h : Heap ps v n used free) (hp : used'.Perm used) : Heap ps v n used' free := by
  obtain ⟨b, trunk, hb, hf, hc⟩ := h.header
  exact h.rebuild (hp.append_right free) (.refl ps v) hb hf hc

theorem put (h : Heap ps v n used free) (hp : p ∈ used) (hb : b.length = ps.toNat) :
    Heap ps (v.set p b) n used free := by
  obtain ⟨c, trunk, hc, hf, hch⟩ := h.header
  have h1 : (1 : UInt32) ≠ p := (h.ne_one (mem_append_left _ hp)).symm
  refine h.rebuild (.refl _) ((View.Sized.refl ps v).set p hb) ((View.set_of_ne _ _ h1).trans hc) hf ?_
  refine hch.congr fun q hq => View.set_of_ne _ _ ?_
  rintro rfl
  exact h.disjoint hp hq

/-- The header's trunk and count fields, as both routines leave them. -/
theorem setFreelist (L : O.Lawful A) {trunk : UInt32} (hb : v 1 = some b) (hl : b.length = ps.toNat)
    (hps : 512 ≤ ps.toNat) (hf : HeaderFields b n trunk count) (trunk' count' : UInt32) :
    ∃ b', Action.Runs A (O.setFreelist trunk' count') v (.ok ()) (v.set 1 b') ∧
      HeaderFields b' n trunk' count' ∧ SameButFields b b' := by
  have hw := sameButFields_write trunk' (show 40 ≤ b.length by omega)
    (o := freelistTrunkPageOffset) (by decide)
  refine ⟨_, L.edit hb ?_, hf.setFreelist trunk' count',
    hw.trans (sameButFields_write count' (by rw [hw.length]; omega) (by decide))⟩
  have h36 : freelistPageCountOffset + 4 ≤ (writeAt b (be32 trunk') freelistTrunkPageOffset).length := by
    rw [hw.length, freelistPageCountOffset]; omega
  rw [writeBeU32_ok _ (by rw [freelistTrunkPageOffset]; omega)]
  exact writeBeU32_ok _ h36

theorem extend (h : Heap ps v n used free) (hn : n ≠ 0xffffffff) (hb : b.length = ps.toNat) {trunk : UInt32}
    (hc : v' 1 = some c) (hcl : c.length = ps.toNat) (hf : HeaderFields c (n + 1) trunk (UInt32.ofNat free.length))
    (hch : FreeChain v' trunk free) (hp : v' (n + 1) = some b) (hv : ∀ q, q ≠ 1 → q ≠ n + 1 → v' q = v q) :
    Heap ps v' (n + 1) ((n + 1) :: used) free := by
  have hn1 : (n + 1).toNat = n.toNat + 1 := by
    have hne : n.toNat ≠ 4294967295 := fun he => hn (UInt32.toNat_inj.1 he)
    have := n.toNat_lt
    rw [UInt32.toNat_add, UInt32.toNat_one]
    omega
  have hnew : n + 1 ∉ used ++ free := fun hm => by
    have := ((h.cover _).1 hm).2
    omega
  refine ⟨h.size, fun q h1 h2 => ?_, by omega, ⟨c, trunk, hc, hf, hch⟩, ?_, fun q => ?_⟩
  · by_cases hq1 : q = 1
    · exact ⟨c, hq1 ▸ hc, hcl⟩
    · by_cases hqn : q = n + 1
      · exact ⟨b, hqn ▸ hp, hb⟩
      · rw [hv q hq1 hqn]
        have hne : q.toNat ≠ (n + 1).toNat := fun he => hqn (UInt32.toNat_inj.1 he)
        exact h.page q h1 (by omega)
  · rw [cons_append]
    exact nodup_cons.2 ⟨hnew, h.nodup⟩
  · rw [cons_append, mem_cons, h.cover, hn1]
    constructor
    · rintro (rfl | hq)
      · have := h.nonempty
        omega
      · omega
    · intro hq
      by_cases hqn : q = n + 1
      · exact .inl hqn
      · have hne : q.toNat ≠ (n + 1).toNat := fun he => hqn (UInt32.toNat_inj.1 he)
        exact .inr (by omega)

/-- What one allocation of the page `p` does to the heap. -/
structure Allocated (ps : UInt32) (v : View) (n : UInt32) (used free : List UInt32) (p : UInt32) (v' : View)
    (n' : UInt32) (free' : List UInt32) : Prop where
  heap : Heap ps v' n' (p :: used) free'
  frame : HeapFrame v v' used
  source : n' = n ∧ free.Perm (p :: free') ∨ n' = n + 1 ∧ free = [] ∧ free' = []

/-- The header fields that `allocate_page` reads first. -/
theorem runs_fields {α : Type} (L : O.Lawful A) {trunk : UInt32} (hb : v 1 = some b) (hf : HeaderFields b n trunk count)
    {k : UInt32 → UInt32 → UInt32 → Action σ PagerError α} {r : Except PagerError α}
    (hk : Action.Runs A (k n trunk count) v r v') : Action.Runs A (do
      let header ← O.readPage 1
      let pageCount ← Action.ofExcept .freelist (readBeU32 header pageCountOffset)
      let trunkPage ← Action.ofExcept .freelist (readBeU32 header freelistTrunkPageOffset)
      let freeCount ← Action.ofExcept .freelist (readBeU32 header freelistPageCountOffset)
      k pageCount trunkPage freeCount) v r v' :=
  (L.readPage hb).bind ((Action.Runs.ofExcept_ok (readBeU32_of_holds hf.pageCount)).bind
    ((Action.Runs.ofExcept_ok (readBeU32_of_holds hf.trunk)).bind
    ((Action.Runs.ofExcept_ok (readBeU32_of_holds hf.freeCount)).bind hk)))

theorem saturatingSucc_of_ne {x : UInt32} (h : x ≠ 0xffffffff) : saturatingSucc x = x + 1 := if_neg h

theorem saturatingPred_ofNat {k : Nat} (h : k + 1 < 2 ^ 32) :
    saturatingPred (UInt32.ofNat (k + 1)) = UInt32.ofNat k := by
  have hne : UInt32.ofNat (k + 1) ≠ 0 := by
    intro he
    have := congrArg UInt32.toNat he
    rw [UInt32.toNat_ofNat', Nat.mod_eq_of_lt h] at this
    cases this
  rw [saturatingPred, if_neg hne, UInt32.ofNat_add]
  exact UInt32.add_sub_cancel _ _

theorem saturatingSucc_ofNat {k : Nat} (h : k + 1 < 2 ^ 32) :
    saturatingSucc (UInt32.ofNat k) = UInt32.ofNat (k + 1) := by
  have hne : UInt32.ofNat k ≠ 0xffffffff := by
    intro he
    have := congrArg UInt32.toNat he
    rw [UInt32.toNat_ofNat', Nat.mod_eq_of_lt (by omega)] at this
    have h4 : (0xffffffff : UInt32).toNat = 4294967295 := rfl
    omega
  rw [saturatingSucc, if_neg hne, UInt32.ofNat_add]
  rfl

theorem frame_set_one (h : Heap ps v n used free) {b' : Bytes} (hb : v 1 = some b) (hs : SameButFields b b')
    (hv : ∀ p ∈ used, v' p = v p) : HeapFrame v (v'.set 1 b') used := by
  refine ⟨fun p hp => ?_, fun c hc => ⟨b', View.set_self _ _ _, ?_⟩⟩
  · rw [View.set_of_ne _ _ (h.ne_one (mem_append_left _ hp)), hv p hp]
  · rw [hb] at hc
    cases hc
    exact hs

theorem trunk_page (h : Heap ps v n used free) (ht : t ∈ used ++ free) (hpage : v t = some (page.bytes ++ tail)) :
    (page.bytes ++ tail).length = ps.toNat ∧ TrunkPage.parse (page.bytes ++ tail) = .ok page := by
  obtain ⟨c, hc, hl⟩ := h.mem_page ht
  rw [hpage] at hc
  cases hc
  have := h.pageSize_ge
  exact ⟨hl, parse_trunk page tail (by rw [hl]; omega)⟩

theorem free_length_lt (h : Heap ps v n used free) : free.length < 2 ^ 32 := by
  have h1 := h.length_lt
  have h2 := n.toNat_lt
  rw [length_append] at h1
  omega

/-- No free page: the database grows by one page. -/
theorem allocatePage_extend (L : O.Lawful A) (hO : O.pageSize = ps) (h : Heap ps v n used []) (hn : n ≠ 0xffffffff)
    (hb : v 1 = some b) (hf : HeaderFields b n 0 (UInt32.ofNat 0)) :
    ∃ v', Action.Runs A O.allocatePage v (.ok (n + 1)) v' ∧ Allocated ps v n used [] (n + 1) v' (n + 1) [] := by
  have hbl := h.header_length hb
  have hps := h.pageSize_ge
  have hn1 : (n + 1).toNat = n.toNat + 1 := by
    have hne : n.toNat ≠ 4294967295 := fun he => hn (UInt32.toNat_inj.1 he)
    have := n.toNat_lt
    rw [UInt32.toNat_add, UInt32.toNat_one]
    omega
  have h1 : (1 : UInt32) ≠ n + 1 := by
    intro he
    have := congrArg UInt32.toNat he
    rw [hn1, UInt32.toNat_one] at this
    have := h.nonempty
    omega
  have hz : (List.replicate O.pageSize.toNat (0 : UInt8)).length = ps.toNat := by
    rw [length_replicate, hO]
  have hw : SameButFields b (writeAt b (be32 (n + 1)) pageCountOffset) :=
    sameButFields_write _ (by omega) (by decide)
  have hb' : (v.set (n + 1) (List.replicate O.pageSize.toNat 0)) 1 = some b :=
    (View.set_of_ne _ _ h1).trans hb
  refine ⟨(v.set (n + 1) (List.replicate O.pageSize.toNat 0)).set 1 (writeAt b (be32 (n + 1)) pageCountOffset),
    runs_fields L hb hf ?_, ?_, ?_, .inr ⟨rfl, rfl, rfl⟩⟩
  · rw [if_pos rfl, saturatingSucc_of_ne hn]
    have hwrite := writeBeU32_ok (n + 1) (show pageCountOffset + 4 ≤ b.length by rw [pageCountOffset]; omega)
    exact (L.insertPage _ _ _).bind ((L.edit hb' hwrite).bind (.pure _))
  · refine h.extend hn hz (View.set_self _ _ _) (hw.length.trans hbl) (hf.setPageCount _) .nil ?_ ?_
    · rw [View.set_of_ne _ _ h1.symm, View.set_self]
    · intro q hq hq'
      rw [View.set_of_ne _ _ hq, View.set_of_ne _ _ hq']
  · refine h.frame_set_one hb hw fun p hp => View.set_of_ne _ _ ?_
    rintro rfl
    have := ((h.cover _).1 (mem_append_left _ hp)).2
    omega

/-- The first trunk lists no page: it is the page. -/
theorem allocatePage_trunk (L : O.Lawful A) (h : Heap ps v n used (t :: rest)) (hb : v 1 = some b)
    (hf : HeaderFields b n t (UInt32.ofNat (rest.length + 1))) (ht : t ≠ 0) (hpage : v t = some (page.bytes ++ tail))
    (hl : page.leaves = []) (hc : FreeChain v page.nextTrunk rest) :
    ∃ v', Action.Runs A O.allocatePage v (.ok t) v' ∧ Allocated ps v n used (t :: rest) t v' n rest := by
  have hlt := h.free_length_lt
  have htm : t ∈ used ++ (t :: rest) := mem_append_right _ mem_cons_self
  obtain ⟨b', hset, hf', hs⟩ := setFreelist L hb (h.header_length hb) h.pageSize_ge.1 hf page.nextTrunk
    (UInt32.ofNat rest.length)
  refine ⟨v.set 1 b', runs_fields L hb hf ?_, ?_, h.frame_set_one hb hs fun _ _ => rfl, .inl ⟨rfl, .refl _⟩⟩
  · rw [if_neg ht]
    refine (L.readPage hpage).bind ((Action.Runs.ofExcept_ok (h.trunk_page htm hpage).2).bind ?_)
    rw [hl, saturatingPred_ofNat (by simpa using hlt)]
    exact hset.bind (.pure _)
  · have hsize := (View.Sized.refl ps v).set 1 (hs.length.trans (h.header_length hb))
    refine h.rebuild perm_middle.symm hsize (View.set_self _ _ _) hf' (hc.congr fun p hp => ?_)
    exact View.set_of_ne _ _ (h.ne_one (mem_append_right _ (mem_cons_of_mem _ hp)))

/-- The first trunk lists pages: its last one is the page. -/
theorem allocatePage_leaf (L : O.Lawful A) {leaf : UInt32} {ls : List UInt32}
    (h : Heap ps v n used (t :: (ls ++ [leaf] ++ rest))) (hb : v 1 = some b)
    (hf : HeaderFields b n t (UInt32.ofNat ((ls ++ rest).length + 1 + 1))) (ht : t ≠ 0)
    (hpage : v t = some (page.bytes ++ tail)) (hl : page.leaves = ls ++ [leaf]) (hc : FreeChain v page.nextTrunk rest) :
    ∃ v', Action.Runs A O.allocatePage v (.ok leaf) v' ∧
      Allocated ps v n used (t :: (ls ++ [leaf] ++ rest)) leaf v' n (t :: (ls ++ rest)) := by
  have hperm : (t :: (ls ++ [leaf] ++ rest)).Perm (leaf :: t :: (ls ++ rest)) := by
    rw [append_assoc, singleton_append]
    exact (perm_middle.cons t).trans (.swap _ _ _)
  have hlt := h.free_length_lt
  rw [hperm.length_eq, length_cons, length_cons] at hlt
  have htm : t ∈ used ++ (t :: (ls ++ [leaf] ++ rest)) := mem_append_right _ mem_cons_self
  obtain ⟨hpl, hparse⟩ := h.trunk_page htm hpage
  have hfit : 8 + 4 * ls.length ≤ (page.bytes ++ tail).length := by
    rw [length_append, TrunkPage.bytes_length, hl, length_append]
    omega
  -- the trunk page without its last leaf
  obtain ⟨tail', hwrite, hnl⟩ := write_trunk ⟨page.nextTrunk, ls⟩ (page.bytes ++ tail) hfit
  rw [hpl] at hnl
  have ht1 : (1 : UInt32) ≠ t := (h.ne_one htm).symm
  obtain ⟨b', hset, hf', hs⟩ := setFreelist L ((View.set_of_ne v _ ht1).trans hb) (h.header_length hb)
    h.pageSize_ge.1 hf t (UInt32.ofNat ((ls ++ rest).length + 1))
  have hnd := (nodup_append'.1 h.nodup).2.1
  have ht' : t ∉ ls ++ [leaf] ++ rest := (nodup_cons.1 hnd).1
  refine ⟨(v.set t (TrunkPage.bytes ⟨page.nextTrunk, ls⟩ ++ tail')).set 1 b', runs_fields L hb hf ?_, ?_, ?_,
    .inl ⟨rfl, hperm⟩⟩
  · rw [if_neg ht]
    refine (L.readPage hpage).bind ((Action.Runs.ofExcept_ok hparse).bind ?_)
    rw [hl, List.getLast?_concat, dropLast_concat, saturatingPred_ofNat hlt]
    exact (L.edit hpage hwrite).bind (hset.bind (.pure _))
  · have hsize := ((View.Sized.refl ps v).set t hnl).set 1 (hs.length.trans (h.header_length hb))
    refine h.rebuild ?_ hsize (View.set_self _ _ _) hf' ?_
    · exact perm_middle.symm.trans (hperm.symm.append_left used)
    · refine .trunk ht ((View.set_of_ne _ b' ht1.symm).trans (View.set_self _ _ _)) (hc.congr fun p hp => ?_)
      have hp' : p ∈ ls ++ [leaf] ++ rest := mem_append_right _ hp
      rw [View.set_of_ne _ _ (h.ne_one (mem_append_right _ (mem_cons_of_mem _ hp'))),
        View.set_of_ne _ _ (by rintro rfl; exact ht' hp')]
  · refine h.frame_set_one hb hs fun p hp => View.set_of_ne _ _ ?_
    rintro rfl
    exact h.disjoint hp mem_cons_self

/-- **Allocating a page**: where there is a free page or a page number left,
the call succeeds, the page was not in use, and no page in use changes. -/
theorem allocatePage (L : O.Lawful A) (hO : O.pageSize = ps) (h : Heap ps v n used free)
    (hn : free = [] → n ≠ 0xffffffff) :
    ∃ p v' n' free', Action.Runs A O.allocatePage v (.ok p) v' ∧
      Allocated ps v n used free p v' n' free' := by
  obtain ⟨b, trunk, hb, hf, hc⟩ := h.header
  cases hc with
  | nil =>
    obtain ⟨v', hr, ha⟩ := allocatePage_extend L hO h (hn rfl) hb hf
    exact ⟨_, v', _, _, hr, ha⟩
  | @cons _ page tail rest ht hpage hrest =>
    rcases eq_nil_or_concat page.leaves with hl | ⟨ls, leaf, hl⟩
    · rw [hl, nil_append] at h hf ⊢
      obtain ⟨v', hr, ha⟩ := allocatePage_trunk L h hb hf ht hpage hl hrest
      exact ⟨_, v', _, _, hr, ha⟩
    · rw [concat_eq_append] at hl
      have hlen : (trunk :: (page.leaves ++ rest)).length = (ls ++ rest).length + 1 + 1 := by
        rw [hl]; simp only [length_cons, length_append, length_nil]; omega
      rw [hlen] at hf
      rw [hl] at h ⊢
      obtain ⟨v', hr, ha⟩ := allocatePage_leaf L h hb hf ht hpage hl hrest
      exact ⟨_, v', _, _, hr, ha⟩

theorem newTrunk (L : O.Lawful A) (hc : v p = some c) (hl : 8 ≤ c.length) (next : UInt32) :
    ∃ tail : Bytes, (TrunkPage.bytes ⟨next, []⟩ ++ tail).length = c.length ∧
      Action.Runs A (O.newTrunk p next) v (.ok p) (v.set p (TrunkPage.bytes ⟨next, []⟩ ++ tail)) := by
  obtain ⟨tail, hwrite, hlen⟩ := write_trunk ⟨next, []⟩ c (by simpa using hl)
  exact ⟨tail, hlen, (L.edit hc hwrite).bind (.pure _)⟩

/-- The page on the freelist: as a leaf of the first trunk when that has
room, else as the new first trunk. -/
theorem addFree (L : O.Lawful A) (hO : O.pageSize = ps) {trunk : UInt32} (h : Heap ps v n (p :: used) free)
    (hc : FreeChain v trunk free) :
    ∃ q c trunk' free', Action.Runs A (O.addFree trunk p) v (.ok trunk') (v.set q c) ∧
      q ∈ p :: free ∧ c.length = ps.toNat ∧ FreeChain (v.set q c) trunk' free' ∧ free'.Perm (p :: free) := by
  have hpm : p ∈ p :: used ++ free := mem_append_left _ mem_cons_self
  have hpf : p ∉ free := h.disjoint mem_cons_self
  have hp0 : p ≠ 0 := by
    rintro rfl
    exact absurd ((h.cover 0).1 hpm).1 (by decide)
  obtain ⟨old, hold, hol⟩ := h.mem_page hpm
  have hps := h.pageSize_ge
  unfold PageOps.addFree
  -- the page as a new trunk in front of the chain
  have hnew : ∃ q c trunk' free', Action.Runs A (O.newTrunk p trunk) v (.ok trunk') (v.set q c) ∧
      q ∈ p :: free ∧ c.length = ps.toNat ∧ FreeChain (v.set q c) trunk' free' ∧ free'.Perm (p :: free) := by
    obtain ⟨tail, hl, hrun⟩ := newTrunk L hold (by omega) trunk
    refine ⟨p, _, p, p :: free, hrun, mem_cons_self, hl.trans hol, ?_, .refl _⟩
    exact .cons hp0 (View.set_self _ _ _) (hc.congr fun q hq =>
      View.set_of_ne _ _ (by rintro rfl; exact hpf hq))
  cases hc with
  | nil => rw [if_neg (not_not.2 rfl)]; exact hnew
  | @cons _ page tail rest ht hpage hrest =>
    have htm : trunk ∈ p :: used ++ (trunk :: (page.leaves ++ rest)) :=
      mem_append_right _ mem_cons_self
    obtain ⟨hpl, hparse⟩ := h.trunk_page htm hpage
    rw [if_pos ht]
    by_cases hroom : page.leaves.length < maxLeavesPerTrunk O.pageSize
    · have hfit : 8 + 4 * (page.leaves ++ [p]).length ≤ (page.bytes ++ tail).length := by
        rw [maxLeavesPerTrunk, hO] at hroom
        rw [hpl, length_append, length_singleton]
        omega
      obtain ⟨tail', hwrite, hlen⟩ := write_trunk ⟨page.nextTrunk, page.leaves ++ [p]⟩ (page.bytes ++ tail) hfit
      have hnd := (nodup_append'.1 h.nodup).2.1
      have ht' : trunk ∉ page.leaves ++ rest := (nodup_cons.1 hnd).1
      refine ⟨trunk, _, trunk, trunk :: (page.leaves ++ [p] ++ rest), ?_,
        mem_cons_of_mem _ mem_cons_self, hlen.trans hpl,
        .trunk ht (View.set_self _ _ _) (hrest.congr fun q hq => View.set_of_ne _ _ ?_), ?_⟩
      · refine (L.readPage hpage).bind ((Action.Runs.ofExcept_ok hparse).bind ?_)
        rw [if_pos hroom]
        exact (L.edit hpage hwrite).bind (.pure _)
      · rintro rfl
        exact ht' (mem_append_right _ hq)
      · rw [append_assoc, singleton_append]
        exact (perm_middle.cons trunk).trans (.swap _ _ _)
    · obtain ⟨q, c, trunk', free', hrun, hq, hcl, hch, hp⟩ := hnew
      refine ⟨q, c, trunk', free', ?_, hq, hcl, hch, hp⟩
      refine (L.readPage hpage).bind ((Action.Runs.ofExcept_ok hparse).bind ?_)
      rw [if_neg hroom]
      exact hrun

/-- **Deallocating a page**: a page in use moves to the freelist and no
other page in use changes. -/
theorem deallocatePage (L : O.Lawful A) (hO : O.pageSize = ps) (h : Heap ps v n (p :: used) free) :
    ∃ v' free', Action.Runs A (O.deallocatePage p) v (.ok ()) v' ∧ Heap ps v' n used free' ∧
      HeapFrame v v' used ∧ free'.Perm (p :: free) := by
  obtain ⟨b, trunk, hb, hf, hc⟩ := h.header
  obtain ⟨q, c, trunk', free', hadd, hq, hcl, hch, hperm⟩ := addFree L hO h hc
  have hpm : p ∈ p :: used ++ free := mem_append_left _ mem_cons_self
  have hqm : q ∈ p :: used ++ free := by
    rcases mem_cons.1 hq with rfl | hq
    · exact hpm
    · exact mem_append_right _ hq
  have hq1 : (1 : UInt32) ≠ q := (h.ne_one hqm).symm
  have hlen : free.length + 1 < 2 ^ 32 := by
    have h1 := h.length_lt
    have h2 := n.toNat_lt
    rw [length_append, length_cons] at h1
    omega
  obtain ⟨b', hset, hf', hs⟩ := setFreelist L ((View.set_of_ne v c hq1).trans hb) (h.header_length hb)
    h.pageSize_ge.1 hf trunk' (UInt32.ofNat (free.length + 1))
  have hsize := ((View.Sized.refl ps v).set q hcl).set 1 (hs.length.trans (h.header_length hb))
  have hqu : ∀ x ∈ used, x ≠ q := by
    rintro x hx rfl
    rcases mem_cons.1 hq with rfl | hq
    · exact (nodup_cons.1 h.nodup).1 (mem_append_left _ hx)
    · exact h.disjoint (mem_cons_of_mem _ hx) hq
  refine ⟨(v.set q c).set 1 b', free', ?_, ?_, ⟨fun x hx => ?_, fun d hd => ?_⟩, hperm⟩
  · refine (L.readPage hb).bind ((Action.Runs.ofExcept_ok (readBeU32_of_holds hf.trunk)).bind
      ((Action.Runs.ofExcept_ok (readBeU32_of_holds hf.freeCount)).bind (hadd.bind ?_)))
    rw [saturatingSucc_ofNat hlen]
    exact hset
  · refine h.rebuild ?_ hsize (View.set_self _ _ _) ?_ (hch.congr fun x hx => View.set_of_ne _ _ ?_)
    · exact (hperm.append_left used).trans perm_middle
    · rwa [hperm.length_eq]
    · rcases mem_cons.1 (hperm.mem_iff.1 hx) with rfl | hx
      · exact h.ne_one hpm
      · exact h.ne_one (mem_append_right _ hx)
  · rw [View.set_of_ne _ _ (h.ne_one (mem_append_left _ (mem_cons_of_mem _ hx))),
      View.set_of_ne _ _ (hqu x hx)]
  · rw [hb] at hd
    cases hd
    exact ⟨b', View.set_self _ _ _, hs⟩

end Heap

/-! ## Sequences of calls on a connection -/

/-- A connection and the pages its user holds. -/
structure AllocState where
  conn : Conn
  live : List UInt32

inductive AllocOp where
  | allocate
  | deallocate (p : UInt32)

/-- The page count in the header, as the connection reads it. -/
def Conn.pageCount (s : Conn) : Option UInt32 :=
  (s.pages 1).bind fun header => (readBeU32 header pageCountOffset).toOption

/-- Page numbers stay below `2^32 - 1`, and only live pages are given back. -/
def AllocState.Allowed (s : AllocState) : AllocOp → Prop
  | .allocate => ∀ n ∈ s.conn.pageCount, n.toNat + 1 < 2 ^ 32 - 1
  | .deallocate p => p ∈ s.live

def AllocState.next (s : AllocState) : AllocOp → AllocState
  | .allocate =>
    match Action.exec (connOps s.conn.pager.pageSize).allocatePage s.conn with
    | (.ok p, conn) => ⟨conn, p :: s.live⟩
    | (.error _, conn) => ⟨conn, s.live⟩
  | .deallocate p =>
    match Action.exec ((connOps s.conn.pager.pageSize).deallocatePage p) s.conn with
    | (.ok _, conn) => ⟨conn, s.live.erase p⟩
    | (.error _, conn) => ⟨conn, s.live⟩

/-- The live pages and the freelist of what the connection reads make up
the database. -/
def AllocInv (s : AllocState) : Prop :=
  CacheOk s.conn ∧ ∃ n free, Heap s.conn.pager.pageSize s.conn.pages n s.live free

/-- Calls of both routines on a connection whose pages are accounted for. -/
def allocator : LTS AllocState AllocOp where
  init := AllocInv
  step s op s' := s.Allowed op ∧ s' = s.next op

theorem Heap.pageCount {n : UInt32} {used free : List UInt32} {s : Conn} (h : Heap ps s.pages n used free) :
    s.pageCount = some n := by
  obtain ⟨b, _, hb, hf, -⟩ := h.header
  rw [Conn.pageCount, hb, Option.bind_some, readBeU32_of_holds hf.pageCount]
  rfl

section
variable {s : AllocState}

theorem AllocInv.allocate (h : AllocInv s) (ha : s.Allowed .allocate) :
    ∃ p conn, Action.exec (connOps s.conn.pager.pageSize).allocatePage s.conn = (.ok p, conn) ∧
      p ∉ s.live ∧ AllocInv ⟨conn, p :: s.live⟩ := by
  obtain ⟨hc, n, free, hh⟩ := h
  have hn : n ≠ 0xffffffff := by
    rintro rfl
    have := ha 0xffffffff hh.pageCount
    exact absurd this (by decide)
  obtain ⟨p, v', n', free', hrun, hal⟩ := hh.allocatePage (conn_lawful _) rfl fun _ => hn
  obtain ⟨conn, hex, hs⟩ := hrun s.conn ⟨hc, rfl, rfl⟩
  have hnew := (nodup_cons.1 hal.heap.nodup).1
  refine ⟨p, conn, hex, fun hp => hnew (mem_append_left _ hp), hs.1, n', free', ?_⟩
  rw [hs.2.1, hs.2.2]
  exact hal.heap

theorem AllocInv.deallocate (h : AllocInv s) (hp : p ∈ s.live) :
    ∃ conn, Action.exec ((connOps s.conn.pager.pageSize).deallocatePage p) s.conn = (.ok (), conn) ∧
      AllocInv ⟨conn, s.live.erase p⟩ := by
  obtain ⟨hc, n, free, hh⟩ := h
  obtain ⟨v', free', hrun, hh', -, -⟩ :=
    (hh.perm (perm_cons_erase hp).symm).deallocatePage (conn_lawful _) rfl
  obtain ⟨conn, hex, hs⟩ := hrun s.conn ⟨hc, rfl, rfl⟩
  refine ⟨conn, hex, hs.1, n, free', ?_⟩
  rw [hs.2.1, hs.2.2]
  exact hh'

theorem allocInv_inductive : allocator.Inductive AllocInv where
  init _ h := h
  step s op s' h hs := by
    obtain ⟨ha, rfl⟩ := hs
    cases op with
    | allocate =>
      obtain ⟨p, conn, hex, -, h'⟩ := h.allocate ha
      simp only [AllocState.next, hex]
      exact h'
    | deallocate p =>
      obtain ⟨conn, hex, h'⟩ := h.deallocate ha
      simp only [AllocState.next, hex]
      exact h'

end

/-- **The freelist invariant**: whatever sequence of calls led here, the
pages 2 to the header's page count are the live pages and the pages on the
freelist, each once, with the freelist's length in the header; the next
allocation returns a page that is not live, and every live page can be
given back. -/
theorem freelist_invariant (s : AllocState) (hs : allocator.Reachable s) :
    (∃ n free, Heap s.conn.pager.pageSize s.conn.pages n s.live free) ∧
      (s.Allowed .allocate →
        ∃ p conn, Action.exec (connOps s.conn.pager.pageSize).allocatePage s.conn = (.ok p, conn) ∧
          p ∉ s.live) ∧
      ∀ p ∈ s.live,
        ∃ conn, Action.exec ((connOps s.conn.pager.pageSize).deallocatePage p) s.conn = (.ok (), conn) := by
  have h := allocInv_inductive.reachable s hs
  refine ⟨h.2, fun ha => ?_, fun p hp => ?_⟩
  · obtain ⟨p, conn, hex, hp, -⟩ := h.allocate ha
    exact ⟨p, conn, hex, hp⟩
  · obtain ⟨conn, hex, -⟩ := h.deallocate hp
    exact ⟨conn, hex⟩

/-! ## A connection to a file -/

/-- A fresh connection to a file, in rollback-journal mode. -/
def Conn.ofFile (ps : UInt32) (main : Bytes) : Conn where
  disk := ⟨main, none, none, none, false⟩
  pager := {
    txLockLevel := .shared
    walResume := none
    walPages := ∅
    dirty := ∅
    pageCache := .new defaultPageCacheCapacity
    pageSize := ps
    journalMode := .legacy
    synchronous := .full }

theorem cacheOk_ofFile (ps : UInt32) (main : Bytes) : CacheOk (Conn.ofFile ps main) :=
  fun p _ h => nomatch (PageCache.content_new _ p).symm.trans h

theorem pages_ofFile {main : Bytes} (hps : 0 < ps.toNat) (hp : p ≠ 0) (hl : p.toNat * ps.toNat ≤ main.length) :
    (Conn.ofFile ps main).pages p = some (slice main (pageOffset ps p) ps.toNat) := by
  have h0 : p.toNat ≠ 0 := fun h => hp (UInt32.toNat_inj.1 h)
  have hm : (p.toNat - 1) * ps.toNat + ps.toNat = p.toNat * ps.toNat := by
    obtain ⟨k, hk⟩ := Nat.exists_eq_succ_of_ne_zero h0
    rw [hk, Nat.succ_sub_one, Nat.succ_mul]
  have hr : readPage main ps p = .ok (slice main (pageOffset ps p) ps.toNat) := (readPage_ok_iff hps).2
    ⟨hp, by rw [pageOffset, hm]; exact hl, rfl⟩
  rw [pages_eq (cacheOk_ofFile ps main)]
  simp only [Conn.ofFile, Conn.readCommitted, ExtTreeMap.getElem?_empty, readMain, hr, Option.none_or]
  rfl

/-- A file without free pages: all pages behind the header are in use. -/
theorem heap_ofFile {n : UInt32} {main h : Bytes} (hs : validPageSize ps) (hm : main.length = n.toNat * ps.toNat)
    (hn : 1 ≤ n.toNat) (hh : slice main 0 ps.toNat = h) (hf : HeaderFields h n 0 0) :
    Heap ps (Conn.ofFile ps main).pages n ((List.range' 2 (n.toNat - 1)).map UInt32.ofNat) [] := by
  have hps : 0 < ps.toNat := by
    simp only [validPageSize, not_or, UInt32.lt_iff_toNat_lt] at hs
    have h1 : (512 : UInt32).toNat = 512 := rfl
    omega
  have hlt := n.toNat_lt
  have hpage : ∀ p : UInt32, 1 ≤ p.toNat → p.toNat ≤ n.toNat →
      (Conn.ofFile ps main).pages p = some (slice main (pageOffset ps p) ps.toNat) := by
    intro p h1 h2
    refine pages_ofFile hps (fun h0 => ?_) (hm ▸ Nat.mul_le_mul_right _ h2)
    rw [h0] at h1
    exact absurd h1 (by decide)
  refine ⟨hs, fun p h1 h2 => ⟨_, hpage p h1 h2, slice_length_of_le ?_⟩, hn, ⟨h, 0, ?_, hf, .nil⟩, ?_, ?_⟩
  · rw [hm, pageOffset, ← Nat.succ_mul]
    exact Nat.mul_le_mul_right _ (by omega)
  · rw [hpage 1 (by decide) hn, ← hh]
    simp [pageOffset]
  · rw [append_nil]
    refine List.Nodup.map_on (fun a ha b hb hab => ?_) nodup_range'
    have ha' := mem_range'_1.1 ha
    have hb' := mem_range'_1.1 hb
    have := congrArg UInt32.toNat hab
    rw [UInt32.toNat_ofNat', UInt32.toNat_ofNat', Nat.mod_eq_of_lt (by omega), Nat.mod_eq_of_lt (by omega)] at this
    exact this
  · intro p
    rw [append_nil, mem_map]
    constructor
    · rintro ⟨k, hk, rfl⟩
      have hk' := mem_range'_1.1 hk
      rw [UInt32.toNat_ofNat', Nat.mod_eq_of_lt (by omega)]
      omega
    · intro hp
      exact ⟨p.toNat, mem_range'_1.2 (by omega), UInt32.ofNat_toNat⟩

/-! ## A database of three pages -/

/-- A header page that counts three pages and an empty freelist. -/
def threePagesHeader : Bytes := List.replicate 28 0 ++ (be32 3 ++ List.replicate 480 0)

/-- A fresh connection to three pages. -/
def threePages : AllocState where
  conn := Conn.ofFile 512 (threePagesHeader ++ List.replicate 1024 7)
  live := [2, 3]

theorem threePages_heap : Heap 512 threePages.conn.pages 3 [2, 3] [] :=
  heap_ofFile (h := threePagesHeader) (by decide) (by decide +kernel) (by decide) (by decide +kernel)
    ⟨by decide +kernel, by decide +kernel, by decide +kernel⟩

theorem threePages_reachable : allocator.Reachable threePages :=
  ⟨threePages, [], ⟨cacheOk_ofFile _ _, 3, [], threePages_heap⟩, .nil _⟩

theorem deallocated_reachable : allocator.Reachable (threePages.next (.deallocate 2)) :=
  threePages_reachable.step (l := .deallocate 2) ⟨mem_cons_self, rfl⟩

/-- Page 2 has been given back: page 3 is the only live page, and it can be
given back too. -/
theorem threePages_deallocate :
    (∃ n free, Heap 512 (threePages.next (.deallocate 2)).conn.pages n [3] free) ∧
      ∃ conn, Action.exec ((connOps 512).deallocatePage 3) (threePages.next (.deallocate 2)).conn = (.ok (), conn) := by
  have hlive : (threePages.next (.deallocate 2)).live = [3] := by decide +kernel
  have hps : (threePages.next (.deallocate 2)).conn.pager.pageSize = 512 := by decide +kernel
  have h := freelist_invariant _ deallocated_reachable
  rw [hlive, hps] at h
  exact ⟨h.1, h.2.2 3 mem_cons_self⟩

end DbStorage.Pager
