import DbStorage.Integrity
import DbStorage.Pager.Heap

/-!
# What the check of the freelist accepts

`TrunkChain source trunk c` lists the trunk pages from one on, as they are
read. `Consistent` says what a freelist has to be, and `Accepted` what the
check makes sure of: it looks for repeated trunks, but not for repeated
leaves, and its counters saturate.

Results: `checkFreelist_nil_iff`, that the check reports nothing if and only
if the chain is `Accepted`, and `accepts_consistent_iff`, the databases on
which that is the same as `Consistent`.
-/
namespace DbStorage.Integrity
open Bytes Btree Pager List

/-! ## Chains of trunk pages -/

/-- The trunk pages from one on, up to the end of the chain. -/
inductive TrunkChain (source : PageSource) : UInt32 → List (UInt32 × TrunkPage) → Prop where
  | nil : TrunkChain source 0 []
  | cons {t : UInt32} {buf : Bytes} {page : TrunkPage} {rest : List (UInt32 × TrunkPage)} : t ≠ 0 →
      source t = .ok buf → TrunkPage.parse buf = .ok page → TrunkChain source page.nextTrunk rest →
      TrunkChain source t ((t, page) :: rest)

def trunksOf (c : List (UInt32 × TrunkPage)) : List UInt32 := c.map Prod.fst

def leavesOf (c : List (UInt32 × TrunkPage)) : List UInt32 := c.flatMap fun e => e.2.leaves

section
variable (source : PageSource) (header : Header) (c : List (UInt32 × TrunkPage))

/-- A freelist: all pages of the chain are pages of the file, none is there
twice, and there are as many as the header says. -/
structure Consistent : Prop where
  chain : TrunkChain source header.freelistTrunkPage c
  inFile : ∀ p ∈ trunksOf c ++ leavesOf c, p ≠ 0 ∧ p ≤ header.pageCount
  nodup : (trunksOf c ++ leavesOf c).Nodup
  count : (trunksOf c ++ leavesOf c).length = header.freelistPageCount.toNat

/-- What the check makes sure of. -/
structure Accepted : Prop where
  chain : TrunkChain source header.freelistTrunkPage c
  inFile : ∀ p ∈ trunksOf c ++ leavesOf c, p ≠ 0 ∧ p ≤ header.pageCount
  nodup : (trunksOf c).Nodup
  count : min (trunksOf c ++ leavesOf c).length (2 ^ 32 - 1) = header.freelistPageCount.toNat

end

variable {leaves : Nat} {seen : List UInt32}

section
variable {source : PageSource} {header : Header} {c d : List (UInt32 × TrunkPage)} {trunk : UInt32}

theorem TrunkChain.unique (hc : TrunkChain source trunk c) (hd : TrunkChain source trunk d) : c = d := by
  induction hc generalizing d with
  | nil =>
    cases hd with
    | nil => rfl
    | cons ht => exact absurd rfl ht
  | cons ht hs hp _ ih =>
    cases hd with
    | nil => exact absurd rfl ht
    | cons _ hs' hp' hrest =>
      obtain rfl := Except.ok.inj (hs.symm.trans hs')
      obtain rfl := Except.ok.inj (hp.symm.trans hp')
      rw [ih hrest]

/-- Different pages of the file are no more than it has pages. -/
theorem length_le_pageCount {pages : List UInt32} {n : UInt32} (hnodup : pages.Nodup)
    (hin : ∀ p ∈ pages, p ≠ 0 ∧ p ≤ n) : pages.length ≤ n.toNat := by
  have hsub : ∀ m ∈ pages.map UInt32.toNat, m ∈ List.range' 1 n.toNat := fun m hm => by
    obtain ⟨p, hp, rfl⟩ := mem_map.1 hm
    obtain ⟨hne, hle⟩ := hin p hp
    have hpos : p.toNat ≠ 0 := fun h0 => hne (UInt32.toNat_inj.1 h0)
    have hle' := UInt32.le_iff_toNat_le.1 hle
    rw [mem_range'_1]
    omega
  simpa using (subperm_of_subset (hnodup.map fun _ _ => UInt32.toNat_inj.1) hsub).length_le

theorem Accepted.consistent (h : Accepted source header c) (hnodup : (trunksOf c ++ leavesOf c).Nodup) :
    Consistent source header c := by
  have hle := length_le_pageCount hnodup h.inFile
  have hlt := header.pageCount.toNat_lt
  have hcount := h.count
  exact ⟨h.chain, h.inFile, hnodup, by omega⟩

theorem Consistent.accepted (h : Consistent source header c) : Accepted source header c := by
  have hle := length_le_pageCount h.nodup h.inFile
  have hlt := header.pageCount.toNat_lt
  have hcount := h.count
  exact ⟨h.chain, h.inFile, (nodup_append.1 h.nodup).1, by omega⟩

/-! ## The walk -/

/-- A turn of the loop that does not end for the number of turns. -/
theorem trunksFrom_succ {fuel hops : Nat} (ht : trunk ≠ 0)
    (hhops : ¬ saturatingAdd32 header.pageCount.toNat 1 < saturatingAdd32 hops 1) :
    trunksFrom source header (fuel + 1) trunk hops seen leaves =
      if header.pageCount < trunk ∨ trunk ∈ seen then ([.trunkOutOfRange trunk], seen, leaves)
      else
        match source trunk with
        | .error e => ([.trunkUnread trunk e], trunk :: seen, leaves)
        | .ok buf =>
          match TrunkPage.parse buf with
          | .error e => ([.trunkUnparsed trunk e], trunk :: seen, leaves)
          | .ok page =>
            ((page.leaves.filter fun leaf => leaf = 0 ∨ header.pageCount < leaf).map Problem.leafOutOfRange ++
                (trunksFrom source header fuel page.nextTrunk (saturatingAdd32 hops 1) (trunk :: seen)
                  (saturatingAdd32 leaves page.leaves.length)).1,
              (trunksFrom source header fuel page.nextTrunk (saturatingAdd32 hops 1) (trunk :: seen)
                (saturatingAdd32 leaves page.leaves.length)).2) := by
  rw [trunksFrom, if_neg ht]
  exact if_neg hhops

/-- What the walk has gone through behind the trunks `seen`. -/
structure Walked (source : PageSource) (header : Header) (trunk : UInt32) (seen : List UInt32) (leaves : Nat)
    (c : List (UInt32 × TrunkPage)) (r : List UInt32 × Nat) : Prop where
  chain : TrunkChain source trunk c
  inFile : ∀ p ∈ trunksOf c ++ leavesOf c, p ≠ 0 ∧ p ≤ header.pageCount
  nodup : (trunksOf c).Nodup
  fresh : ∀ p ∈ trunksOf c, p ∉ seen
  seen : r.1 = (trunksOf c).reverse ++ seen
  leaves : r.2 = min (leaves + (leavesOf c).length) (2 ^ 32 - 1)

theorem badLeaves_nil {leaves : List UInt32} :
    (leaves.filter fun leaf => leaf = 0 ∨ header.pageCount < leaf).map Problem.leafOutOfRange = [] ↔
      ∀ p ∈ leaves, p ≠ 0 ∧ p ≤ header.pageCount := by
  simp [filter_eq_nil_iff, UInt32.not_lt]

theorem walked_zero (hleaves : leaves ≤ 2 ^ 32 - 1) {r : List UInt32 × Nat} :
    (seen, leaves) = r ↔ ∃ c, Walked source header 0 seen leaves c r := by
  constructor
  · rintro rfl
    exact ⟨[], .nil, nofun, nodup_nil, nofun, rfl, (Nat.min_eq_left hleaves).symm⟩
  · rintro ⟨c, hw⟩
    obtain rfl : c = [] := hw.chain.unique .nil
    exact Prod.ext hw.seen.symm (hw.leaves.trans (Nat.min_eq_left hleaves)).symm

theorem walked_cons {buf : Bytes} {page : TrunkPage} (ht : trunk ≠ 0) (hread : source trunk = .ok buf)
    (hparse : TrunkPage.parse buf = .ok page) {r : List UInt32 × Nat} :
    (∃ c, Walked source header trunk seen leaves c r) ↔
      (trunk ≤ header.pageCount ∧ trunk ∉ seen) ∧ (∀ p ∈ page.leaves, p ≠ 0 ∧ p ≤ header.pageCount) ∧
        ∃ c, Walked source header page.nextTrunk (trunk :: seen) (min (leaves + page.leaves.length) (2 ^ 32 - 1)) c r := by
  constructor
  · rintro ⟨c, hw⟩
    cases hw with
    | mk chain inFile nodup fresh hseen hleaves =>
      cases chain with
      | nil => exact absurd rfl ht
      | @cons _ buf' page' rest _ hread' hparse' hrest =>
        obtain rfl := Except.ok.inj (hread.symm.trans hread')
        obtain rfl := Except.ok.inj (hparse.symm.trans hparse')
        simp only [trunksOf, leavesOf, map_cons, flatMap_cons, mem_append, mem_cons,
          nodup_cons, reverse_cons, append_assoc, length_append] at inFile nodup fresh hseen hleaves
        refine ⟨⟨(inFile trunk (.inl (.inl rfl))).2, fresh trunk (.inl rfl)⟩,
          fun p hp => inFile p (.inr (.inl hp)), rest, hrest, fun p hp => ?_, nodup.2, fun p hp hmem => ?_, hseen, ?_⟩
        · rcases mem_append.1 hp with hp | hp
          · exact inFile p (.inl (.inr hp))
          · exact inFile p (.inr (.inr hp))
        · rcases mem_cons.1 hmem with rfl | hmem
          · exact nodup.1 hp
          · exact fresh p (.inr hp) hmem
        · rw [hleaves, leavesOf]
          omega
  · rintro ⟨⟨hle, hnew⟩, hgood, c, hw⟩
    refine ⟨(trunk, page) :: c, .cons ht hread hparse hw.chain, fun p hp => ?_, ?_, fun p hp => ?_, ?_, ?_⟩
    · simp only [trunksOf, leavesOf, map_cons, flatMap_cons, cons_append, mem_cons,
        mem_append] at hp
      rcases hp with rfl | hp | hp | hp
      · exact ⟨ht, hle⟩
      · exact hw.inFile p (mem_append_left _ hp)
      · exact hgood p hp
      · exact hw.inFile p (mem_append_right _ hp)
    · exact nodup_cons.2 ⟨fun hmem => hw.fresh trunk hmem mem_cons_self, hw.nodup⟩
    · rcases mem_cons.1 hp with rfl | hp
      · exact hnew
      · exact fun hmem => hw.fresh p hp (mem_cons_of_mem _ hmem)
    · rw [hw.seen, trunksOf, trunksOf, map_cons, reverse_cons, append_assoc]
      rfl
    · have hlen : (leavesOf ((trunk, page) :: c)).length = page.leaves.length + (leavesOf c).length := by
        simp [leavesOf]
      rw [hw.leaves, hlen]
      omega

/-- The walk finds nothing wrong if and only if there is a chain to its end
with new trunks and with numbers of the file. The invariant is that the
trunks seen are different pages of the file, so the turns do not run out. -/
theorem trunksFrom_nil_iff (fuel : Nat) (hnodup : seen.Nodup) (hin : ∀ p ∈ seen, p ≠ 0 ∧ p ≤ header.pageCount)
    (hfuel : fuel + seen.length = 2 ^ 32 + 1) (hleaves : leaves ≤ 2 ^ 32 - 1) (r : List UInt32 × Nat) :
    trunksFrom source header fuel trunk seen.length seen leaves = ([], r) ↔
      ∃ c, Walked source header trunk seen leaves c r := by
  induction fuel generalizing trunk seen leaves with
  | zero =>
    have hle := length_le_pageCount hnodup hin
    have hlt := header.pageCount.toNat_lt
    omega
  | succ fuel ih =>
    have hle := length_le_pageCount hnodup hin
    have hlt := header.pageCount.toNat_lt
    by_cases ht : trunk = 0
    · subst ht
      rw [← walked_zero hleaves]
      simp [trunksFrom]
    have hmax : ¬ saturatingAdd32 header.pageCount.toNat 1 < saturatingAdd32 seen.length 1 := by
      rw [saturatingAdd32, saturatingAdd32]
      omega
    rw [trunksFrom_succ ht hmax]
    by_cases hbad : header.pageCount < trunk ∨ trunk ∈ seen
    · rw [if_pos hbad]
      refine iff_of_false (by simp) ?_
      rintro ⟨c, hw⟩
      cases hw with
      | mk chain inFile nodup fresh =>
        cases chain with
        | nil => exact ht rfl
        | cons =>
          rcases hbad with hgt | hmem
          · exact UInt32.not_le.2 hgt (inFile trunk (by simp [trunksOf])).2
          · exact fresh trunk (by simp [trunksOf]) hmem
    rw [if_neg hbad]
    rw [not_or, UInt32.not_lt] at hbad
    have hnodup' : (trunk :: seen).Nodup := nodup_cons.2 ⟨hbad.2, hnodup⟩
    have hin' : ∀ p ∈ trunk :: seen, p ≠ 0 ∧ p ≤ header.pageCount := fun p hp => by
      rcases mem_cons.1 hp with rfl | hp
      · exact ⟨ht, hbad.1⟩
      · exact hin p hp
    have hle' := length_le_pageCount hnodup' hin'
    rw [length_cons] at hle'
    have hhops : saturatingAdd32 seen.length 1 = (trunk :: seen).length := by
      rw [saturatingAdd32, length_cons]
      omega
    -- a page that cannot be read or parsed is the end of no chain
    have hstop : ∀ {e : List Problem × List UInt32 × Nat}, e.1 ≠ [] →
        (∀ buf page, source trunk = .ok buf → TrunkPage.parse buf ≠ .ok page) →
        (e = ([], r) ↔ ∃ c, Walked source header trunk seen leaves c r) := by
      intro e he hno
      refine iff_of_false (fun h => he (by rw [h])) ?_
      rintro ⟨c, hw⟩
      cases hw.chain with
      | nil => exact ht rfl
      | cons _ hs hp _ => exact hno _ _ hs hp
    cases hread : source trunk with
    | error e =>
      refine hstop (cons_ne_nil _ _) fun buf page h => ?_
      rw [hread] at h
      cases h
    | ok buf =>
      simp only
      cases hparse : TrunkPage.parse buf with
      | error e =>
        refine hstop (cons_ne_nil _ _) fun buf' page h => ?_
        obtain rfl := Except.ok.inj (hread.symm.trans h)
        rw [hparse]
        exact fun h => by cases h
      | ok page =>
        have hleaves' : saturatingAdd32 leaves page.leaves.length = min (leaves + page.leaves.length) (2 ^ 32 - 1) := rfl
        simp only [hhops, hleaves']
        rw [walked_cons ht hread hparse, and_iff_right hbad, ← badLeaves_nil,
          ← ih hnodup' hin' (by rw [length_cons]; omega) (Nat.min_le_right _ _)]
        constructor
        · intro h
          obtain ⟨h₁, h₂⟩ := Prod.mk.inj h
          obtain ⟨h₁, h₃⟩ := append_eq_nil_iff.1 h₁
          exact ⟨h₁, Prod.ext h₃ h₂⟩
        · rintro ⟨h₁, h₂⟩
          rw [h₂, h₁]
          rfl

/-- The two saturating counters together. -/
theorem accepted_iff_walked : (∃ c, Accepted source header c) ↔
    ∃ r, ∃ c, Walked source header header.freelistTrunkPage [] 0 c r ∧
      saturatingAdd32 r.2 r.1.length = header.freelistPageCount.toNat := by
  have htotal (c : List (UInt32 × TrunkPage)) :
      saturatingAdd32 (min (0 + (leavesOf c).length) (2 ^ 32 - 1)) ((trunksOf c).reverse ++ []).length =
        min (trunksOf c ++ leavesOf c).length (2 ^ 32 - 1) := by
    rw [saturatingAdd32, append_nil, length_reverse, length_append]
    omega
  constructor
  · rintro ⟨c, hc⟩
    exact ⟨(_, _), c, ⟨hc.chain, hc.inFile, hc.nodup, fun _ _ => not_mem_nil, rfl, rfl⟩, (htotal c).trans hc.count⟩
  · rintro ⟨r, c, hw, hcount⟩
    rw [hw.seen, hw.leaves, htotal] at hcount
    exact ⟨c, hw.chain, hw.inFile, hw.nodup, hcount⟩

theorem checkFreelist_nil_iff : checkFreelist source header = [] ↔ ∃ c, Accepted source header c := by
  by_cases hz : header.freelistTrunkPage = 0
  · have hcheck : checkFreelist source header = [] ↔ header.freelistPageCount = 0 := by
      simp [checkFreelist, hz]
    rw [hcheck]
    constructor
    · intro h0
      exact ⟨[], hz ▸ .nil, nofun, nodup_nil, by rw [h0]; rfl⟩
    · rintro ⟨c, hc⟩
      obtain rfl : c = [] := hc.chain.unique (hz ▸ .nil)
      exact UInt32.toNat_inj.1 hc.count.symm
  · have hwalk (r) : trunksFrom source header (2 ^ 32 + 1) header.freelistTrunkPage 0 [] 0 = ([], r) ↔
        ∃ c, Walked source header header.freelistTrunkPage [] 0 c r :=
      trunksFrom_nil_iff (2 ^ 32 + 1) nodup_nil nofun rfl (Nat.zero_le _) r
    rw [accepted_iff_walked]
    have hcheck : checkFreelist source header = [] ↔
        ∃ r, trunksFrom source header (2 ^ 32 + 1) header.freelistTrunkPage 0 [] 0 = ([], r) ∧
          saturatingAdd32 r.2 r.1.length = header.freelistPageCount.toNat := by
      rw [checkFreelist, if_neg hz]
      generalize trunksFrom source header (2 ^ 32 + 1) header.freelistTrunkPage 0 [] 0 = run
      obtain ⟨problems, seen, leaves⟩ := run
      simp
    rw [hcheck]
    exact exists_congr fun r => by rw [hwalk, exists_and_right]

/-- The check reports nothing exactly for the consistent freelists if and only
if no chain that it accepts has a page twice. -/
theorem accepts_consistent_iff (source : PageSource) (header : Header) :
    (checkFreelist source header = [] ↔ ∃ c, Consistent source header c) ↔
      ∀ c, Accepted source header c → (trunksOf c ++ leavesOf c).Nodup := by
  rw [checkFreelist_nil_iff]
  constructor
  · intro h c hc
    obtain ⟨d, hd⟩ := h.1 ⟨c, hc⟩
    rw [hc.chain.unique hd.chain]
    exact hd.nodup
  · intro h
    exact ⟨fun ⟨c, hc⟩ => ⟨c, hc.consistent (h c hc)⟩, fun ⟨c, hc⟩ => ⟨c, hc.accepted⟩⟩

end

/-! ## A page that is free twice -/

/-- The trunk on page 2 lists page 3 twice. -/
def repeatedLeaf : PageSource
  | 2 => .ok (TrunkPage.bytes ⟨0, [3, 3]⟩)
  | _ => .error .pendingTransaction

def repeatedLeafHeader : Header := { smallHeader with freelistTrunkPage := 2, freelistPageCount := 3 }

/-- Nothing is reported, and two allocations would return page 3. -/
theorem repeated_leaf_accepted : checkFreelist repeatedLeaf repeatedLeafHeader = [] ∧
    ¬ ∃ c, Consistent repeatedLeaf repeatedLeafHeader c := by
  refine ⟨by decide +kernel, ?_⟩
  rintro ⟨c, hc⟩
  have hparse : TrunkPage.parse (TrunkPage.bytes ⟨0, [3, 3]⟩) = .ok ⟨0, [3, 3]⟩ := by decide +kernel
  obtain rfl := hc.chain.unique (.cons (by decide) rfl hparse .nil)
  exact absurd hc.nodup (by decide)

end DbStorage.Integrity
