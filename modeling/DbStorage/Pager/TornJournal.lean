import DbStorage.Pager.Crash

/-!
# Power loss before the journal is synced

Until `flush_locked` has synced the journal, a power loss may leave any
subset of its 512-byte sectors; the others read as zero. Between a torn
record and the main file stands only its checksum, one byte in two hundred.

`powerLoss` tears the journal that the first operations of a flush have
written, `openPager` is the open that follows. `accepted` are the torn
records that pass their checksum, in terms of the pre-images the flush
journaled and the sectors that survive.

Results: `replay_tear` (a replay of the torn journal applies exactly the
accepted records), `torn_open_iff` (the open leaves every page as it was
exactly when the header is lost or no accepted record changes a page) and
`torn_record_overwrites_page_one` (a lost sector that holds a record's page
number and none of its sampled bytes).
-/
namespace DbStorage.Pager
open Bytes Vfs Std List

/-! ## Lost sectors -/

/-- The bytes at offset `o` of a file, as they read when only the sectors of
`kept` have reached the disk. -/
def tear (kept : Nat → Bool) : Nat → Bytes → Bytes
  | _, [] => []
  | o, x :: b => (if kept (o / 512) then x else 0) :: tear kept (o + 1) b

variable {b a : Bytes} {R : List (UInt32 × Bytes)} {i : Nat}

section
variable {kept : Nat → Bool}

@[simp] theorem tear_length (o : Nat) (b : Bytes) : (tear kept o b).length = b.length := by
  induction b generalizing o with
  | nil => rfl
  | cons x b ih => simp only [tear, length_cons, ih]

theorem tear_getElem? (o : Nat) (b : Bytes) (i : Nat) :
    (tear kept o b)[i]? = b[i]?.map fun x => if kept ((o + i) / 512) then x else 0 := by
  induction b generalizing o i with
  | nil => rfl
  | cons x b ih =>
    cases i with
    | zero => rfl
    | succ i => simp only [tear, List.getElem?_cons_succ, ih, Nat.add_assoc, Nat.add_comm 1]

theorem slice_tear (o : Nat) (b : Bytes) (a l : Nat) :
    slice (tear kept o b) a l = tear kept (o + a) (slice b a l) := by
  apply ext_getElem?
  intro i
  simp only [slice_getElem?, tear_getElem?, Nat.add_assoc]
  split <;> rfl

/-- What lies in sectors that survive is as it was written. -/
theorem tear_of_kept {o : Nat} (h : ∀ i < b.length, kept ((o + i) / 512) = true) : tear kept o b = b := by
  apply ext_getElem?
  intro i
  rw [tear_getElem?]
  rcases Nat.lt_or_ge i b.length with hi | hi
  · simp [h i hi]
  · simp [hi]

/-- What lies in lost sectors reads as zero. -/
theorem tear_of_lost {o : Nat} (h : ∀ i < b.length, kept ((o + i) / 512) = false) :
    tear kept o b = List.replicate b.length 0 := by
  apply ext_getElem?
  intro i
  rw [tear_getElem?]
  rcases Nat.lt_or_ge i b.length with hi | hi
  · simp [h i hi, hi]
  · simp [hi]

end

/-! ## Power loss and the open after it -/

/-- An operation on the journal that needs no sync to have happened. -/
def FileOp.onJournal : FileOp → Bool
  | .createJournal | .writeJournal _ _ => true
  | _ => false

def powerLoss (kept : Nat → Bool) (f : Files) : Files :=
  { f with journal := f.journal.map (tear kept 0) }

/-- `Pager::open` on a database that nobody else has open, and the files it
leaves.
mirrors pager/mod.rs:403-441 -/
def openPager (pageSize : UInt32) (f : Files) : Except PagerError Files := do
  let ops ← openOps f
  let _ ← readMain (runOps ops f).main pageSize 1
  .ok (runOps ops f)

/-! ## Torn records -/

section
variable (ps nonce : UInt32) (kept : Nat → Bool)

/-- Page number, content and checksum that record `i` of pre-image `w` has
in the torn journal. -/
def tornRecord (i : Nat) (w : UInt32 × Bytes) : UInt32 × Bytes × UInt32 :=
  let offset := recordOffset ps ps i
  (ofBe32 (tear kept offset (be32 w.1)), tear kept (offset + 4) w.2,
    ofBe32 (tear kept (offset + 4 + ps.toNat) (be32 (pageChecksum nonce w.2))))

/-- The torn records up to the first whose checksum is wrong. -/
def accepted : Nat → List (UInt32 × Bytes) → List (UInt32 × Bytes)
  | _, [] => []
  | i, w :: R =>
    let (page, data, sum) := tornRecord ps nonce kept i w
    if pageChecksum nonce data = sum then (page, data) :: accepted (i + 1) R else []

end

/-- The page whose place record content is written to: `recover` subtracts
one from the page number without going below zero. -/
def landing (pageNum : UInt32) : UInt32 := if pageNum = 0 then 1 else pageNum

/-- `flush_locked` can journal the page. -/
def readable (main : Bytes) (ps p : UInt32) : Bool :=
  match readPage main ps p with
  | .ok _ => true
  | .error _ => false

/-- The pre-images a flush journals; it stops at a page it cannot read. -/
def journaled (main : Bytes) (ps count : UInt32) (dirty : DirtyPages) : List (UInt32 × Bytes) :=
  preImages main ps ((toJournal count dirty).takeWhile (readable main ps))

/-- The header is written, by the second operation, and its sector survives. -/
def HeaderSurvives (ps count : UInt32) (dirty : DirtyPages) (k : Nat) (kept : Nat → Bool) : Prop :=
  2 ≤ k ∧ toJournal count dirty ≠ [] ∧ journalHeaderLen ≤ ps.toNat ∧ kept 0 = true

/-- No page lies behind the page count, and each page that accepted records
land on is left by the last of them as it was. -/
structure Harmless (ps nonce count : UInt32) (main : Bytes) (kept : Nat → Bool)
    (R : List (UInt32 × Bytes)) : Prop where
  counted : ∀ q c, readPage main ps q = .ok c → q ≤ count
  unchanged : ∀ q c, lastWrite ((accepted ps nonce kept 0 R).map fun w => (landing w.1, w.2)) q = some c →
    ∀ c', readPage main ps q = .ok c' → c = c'

variable {w : UInt32 × Bytes} {h : JournalHeader} {A : List (UInt32 × Bytes)}

section
variable {ps nonce count : UInt32} {kept : Nat → Bool} {main : Bytes} {dirty : DirtyPages}
  {sync : SynchronousMode}

theorem accepted_length {n : Nat} (i : Nat) (hR : ∀ w ∈ R, w.2.length = n) :
    ∀ w ∈ accepted ps nonce kept i R, w.2.length = n := by
  induction R generalizing i with
  | nil => intro w hw; cases hw
  | cons v R ih =>
    simp only [accepted]
    split
    · intro w hw
      rcases mem_cons.1 hw with rfl | hw
      · simp only [tornRecord, tear_length]
        exact hR v mem_cons_self
      · exact ih (i + 1) (fun u hu => hR u (mem_cons_of_mem _ hu)) w hw
    · intro w hw; cases hw

/-! ## What a replay of the torn journal applies -/

theorem recordAt_tear (ha : a.length = recordOffset ps ps i) (hw : w.2.length = ps.toNat) :
    recordAt ps ps (tear kept 0 (a ++ (recordBytes nonce w.1 w.2 ++ b))) i =
      some (tornRecord ps nonce kept i w) := by
  have hl := @recordBytes_length nonce w.1 ps w.2 hw
  have hs : slice (a ++ (recordBytes nonce w.1 w.2 ++ b)) (recordOffset ps ps i) (recordLen ps) =
      recordBytes nonce w.1 w.2 := by
    rw [slice_append_right _ _ _ _ (by omega), ha, Nat.sub_self, slice_append_left _ _ _ _ (by omega),
      ← hl, slice_self_length]
  obtain ⟨e1, e2, e3⟩ := recordBytes_fields nonce w.1 hw
  rw [recordAt_eq, if_pos (by simp only [tear_length, length_append]; omega)]
  simp only [slice_tear, hs, e1, e2, e3, tornRecord, Nat.zero_add, Nat.add_zero, Nat.add_assoc]

theorem replayFrom_tear (hss : h.sectorSize = ps) (hps : h.pageSize = ps) (hnonce : h.nonce = nonce)
    (hR : ∀ w ∈ R, w.2.length = ps.toNat) {n : Nat} (ha : a.length = recordOffset ps ps i) (hn : R.length ≤ n) :
    replayFrom h (tear kept 0 (a ++ R.flatMap fun w => recordBytes nonce w.1 w.2)) n i =
      accepted ps nonce kept i R := by
  induction R generalizing a i n with
  | nil =>
    cases n with
    | zero => rfl
    | succ n =>
      -- the file ends where slot `i` begins
      have hnone : recordAt ps ps (tear kept 0 (a ++ [])) i = none := by
        rw [recordAt_eq, if_neg]
        simp only [tear_length, append_nil, ha, recordLen]
        omega
      rw [replayFrom, hss, hps, flatMap_nil, hnone]
      rfl
  | cons w R ih =>
    cases n with
    | zero => simp at hn
    | succ n =>
      have hw := hR w mem_cons_self
      have hl := @recordBytes_length nonce w.1 ps w.2 hw
      rw [replayFrom, hss, hps, flatMap_cons, recordAt_tear ha hw, hnonce, ← append_assoc,
        ih (fun v hv => hR v (mem_cons_of_mem _ hv))
          (by rw [length_append, ha, hl, recordOffset_succ]) (by simpa using hn)]
      simp only [accepted, ne_eq, ite_not]

/-- The first `R` records behind the header's sector. -/
theorem writeRecords_eq_append (hR : ∀ w ∈ R, w.2.length = ps.toNat) (ha : a.length = recordOffset ps ps i) :
    writeRecords nonce ps ps a i R = a ++ R.flatMap fun w => recordBytes nonce w.1 w.2 := by
  induction R generalizing a i with
  | nil => simp [writeRecords]
  | cons w R ih =>
    have hl := @recordBytes_length nonce w.1 ps w.2 (hR w mem_cons_self)
    rw [writeRecords, ← ha, writeAt_end, ih (fun v hv => hR v (mem_cons_of_mem _ hv))
      (by rw [length_append, ha, hl, recordOffset_succ]), flatMap_cons, append_assoc]

/-- **The torn journal**: hot exactly when its first sector survives; then
its header is whole and a replay applies the accepted records. -/
theorem replay_tear {n : UInt32} {region : Bytes} {R : List (UInt32 × Bytes)}
    (hreg : headerRegion ⟨n, nonce, count, ps, ps⟩ = .ok region)
    (hR : ∀ w ∈ R, w.2.length = ps.toNat) (hn : R.length ≤ n.toNat) :
    let j := tear kept 0 (writeRecords nonce ps ps region 0 R)
    (kept 0 = false → journalIsHot j = false) ∧
      (kept 0 = true → journalIsHot j = true ∧ JournalHeader.parse j = .ok ⟨n, nonce, count, ps, ps⟩ ∧
        replay ⟨n, nonce, count, ps, ps⟩ j = accepted ps nonce kept 0 R) := by
  intro j
  obtain ⟨hrl, h28, hser⟩ := headerRegion_length hreg
  simp only at hrl
  have h0 : region.length = recordOffset ps ps 0 := by simp [recordOffset, hrl]
  have hj : j = tear kept 0 (region ++ R.flatMap fun w => recordBytes nonce w.1 w.2) :=
    congrArg (tear kept 0) (writeRecords_eq_append hR h0)
  -- the header lies in the first sector
  have hhead : ∀ l ≤ 28, slice j 0 l = tear kept 0
      (slice (JournalHeader.serialize ⟨n, nonce, count, ps, ps⟩ journalMagic) 0 l) := by
    intro l hl
    rw [hj, slice_tear, slice_append_left _ _ _ _ (by omega), Nat.zero_add, ← hser,
      slice_slice _ _ _ _ _ (by omega)]
  have hmagic : slice (JournalHeader.serialize ⟨n, nonce, count, ps, ps⟩ journalMagic) 0 8 = journalMagic := by
    simp [JournalHeader.serialize, journalMagic, slice]
  have hsector : ∀ i < 28, (0 + i) / 512 = 0 := by intro i hi; omega
  constructor
  · intro hlost
    have hz : slice j 0 8 = List.replicate 8 0 := by
      rw [hhead 8 (by omega), hmagic]
      refine tear_of_lost fun i hi => ?_
      rw [hsector i (by simp only [journalMagic, length_cons, length_nil] at hi; omega)]
      exact hlost
    rw [journalIsHot, hz]
    decide
  · intro hkept
    have hkeep : ∀ b : Bytes, b.length ≤ 28 → tear kept 0 b = b := fun b hb =>
      tear_of_kept fun i hi => by rw [hsector i (by omega)]; exact hkept
    refine ⟨?_, ?_, ?_⟩
    · rw [journalIsHot, hhead 8 (by omega), hmagic, hkeep _ (by decide)]
      decide
    · refine parse_headerRegion ?_ ?_
      · rw [hj, tear_length, length_append]; omega
      · have hsl := serialize_length ⟨n, nonce, count, ps, ps⟩
        rw [hhead 28 (Nat.le_refl _), ← hsl, slice_self_length]
        exact hkeep _ (Nat.le_of_eq hsl)
    · rw [hj]
      exact replayFrom_tear rfl rfl rfl hR h0 hn

/-! ## What the flush has written by then -/

theorem journalRecords_ops (main : Bytes) (ps nonce : UInt32) (i : Nat) (pages : List UInt32) :
    (journalRecords main ps nonce i pages).ops =
      recordOps ps nonce i (preImages main ps (pages.takeWhile (readable main ps))) := by
  induction pages generalizing i with
  | nil => rfl
  | cons p pages ih =>
    cases hp : readPage main ps p with
    | error e =>
      have hm : readMain main ps p = .error (.page e) := by rw [readMain, hp]; rfl
      rw [journalRecords, hm, takeWhile_cons_of_neg (by simp [readable, hp])]
      rfl
    | ok c =>
      have hone := @journalRecords_eq main ps nonce [p] i (by
        intro q hq
        rw [mem_singleton.1 hq]
        exact ⟨c, hp⟩)
      have hm : readMain main ps p = .ok c := by rw [readMain, hp]; rfl
      rw [takeWhile_cons_of_pos (by simp [readable, hp]), journalRecords, hm]
      simp only [journalRecords, hm, andThen_ops, preImages, map_cons, map_nil, recordOps,
        Plan.mk.injEq, append_nil, and_true, List.cons.injEq] at hone ⊢
      rw [hone, singleton_append, ih]
      rfl

/-- The journal's operations in a flush, up to its sync. -/
def journalOps (main : Bytes) (ps nonce count : UInt32) (dirty : DirtyPages) : List FileOp :=
  if toJournal count dirty = [] then []
  else
    match headerRegion ⟨UInt32.ofNat (toJournal count dirty).length, nonce, count, ps, ps⟩ with
    | .error _ => [.createJournal]
    | .ok region => .createJournal :: .writeJournal region 0 :: recordOps ps nonce 0 (journaled main ps count dirty)

theorem andThen_ops_append (a b : Plan) : ∃ t, (a.andThen b).ops = a.ops ++ t ∧ ∀ op ∈ t, op ∈ b.ops := by
  unfold Plan.andThen
  cases a.error with
  | some e => exact ⟨[], by simp, fun op hop => nomatch hop⟩
  | none => exact ⟨b.ops, rfl, fun op hop => hop⟩

theorem writeDirty_onJournal (ps : UInt32) (pages : List (UInt32 × Bytes)) :
    ∀ op ∈ (writeDirty ps pages).ops, op.onJournal = false := by
  induction pages with
  | nil => intro op hop; cases hop
  | cons w pages ih =>
    simp only [writeDirty]
    split
    · intro op hop; cases hop
    · split
      · intro op hop; cases hop
      · rw [andThen_ops rfl]
        intro op hop
        rcases mem_append.1 hop with hop | hop
        · rw [mem_singleton.1 hop]; rfl
        · exact ih op hop

theorem journalPart_split (main : Bytes) (ps nonce count : UInt32) (sync : SynchronousMode) (dirty : DirtyPages) :
    ∃ t, (journalPart ps sync nonce count main (toJournal count dirty)).ops =
      journalOps main ps nonce count dirty ++ t ∧ ∀ op ∈ t, op.onJournal = false := by
  unfold journalPart journalOps
  by_cases hj : toJournal count dirty = []
  · rw [if_pos hj, if_pos hj]
    exact ⟨[], rfl, fun op hop => nomatch hop⟩
  · rw [if_neg hj, if_neg hj]
    simp only
    cases headerRegion ⟨UInt32.ofNat (toJournal count dirty).length, nonce, count, ps, ps⟩ with
    | error e => exact ⟨[], rfl, fun op hop => nomatch hop⟩
    | ok region =>
      obtain ⟨t, ht, hops⟩ := andThen_ops_append
        ((⟨[.createJournal, .writeJournal region 0], none⟩ : Plan).andThen
          (journalRecords main ps nonce 0 (toJournal count dirty)))
        ⟨if sync ≠ .off then [.syncJournal] else [], none⟩
      refine ⟨t, ?_, ?_⟩
      · simp only [ht]
        rw [andThen_ops rfl, journalRecords_ops]
        rfl
      · intro op hop
        have := hops op hop
        simp only at this
        split at this
        · rw [mem_singleton.1 this]; rfl
        · cases this

/-- The operations of a flush: those on the journal, and then others. -/
theorem flushLocked_split (hc : headerPageCount main ps = .ok count) :
    ∃ t, (flushLocked ps sync nonce main dirty).ops = journalOps main ps nonce count dirty ++ t ∧
      ∀ op ∈ t, op.onJournal = false := by
  have hfold : dirty.keys.filter (· ≤ count) = toJournal count dirty := rfl
  simp only [flushLocked, hc, hfold]
  obtain ⟨t, ht, hops⟩ := journalPart_split main ps nonce count sync dirty
  obtain ⟨u, hu, hopsu⟩ := andThen_ops_append
    (journalPart ps sync nonce count main (toJournal count dirty)) (writeDirty ps dirty.toList)
  obtain ⟨v, hv, hopsv⟩ := andThen_ops_append
    ((journalPart ps sync nonce count main (toJournal count dirty)).andThen (writeDirty ps dirty.toList))
    ⟨(if sync = .full then [.syncMain] else []) ++
      (if toJournal count dirty = [] then [] else [.deleteJournal]), none⟩
  refine ⟨t ++ (u ++ v), by rw [hv, hu, ht, append_assoc, append_assoc], ?_⟩
  intro op hop
  rcases mem_append.1 hop with hop | hop
  · exact hops op hop
  · rcases mem_append.1 hop with hop | hop
    · exact writeDirty_onJournal _ _ op (hopsu op hop)
    · rcases mem_append.1 (hopsv op hop) with hop | hop
      · split at hop
        · rw [mem_singleton.1 hop]; rfl
        · cases hop
      · split at hop
        · cases hop
        · rw [mem_singleton.1 hop]; rfl

/-- As long as a flush has only worked on its journal, it is within `journalOps`. -/
theorem take_flushLocked {k : Nat} (hc : headerPageCount main ps = .ok count)
    (hk : ∀ op ∈ (flushLocked ps sync nonce main dirty).ops.take k, op.onJournal = true) :
    (flushLocked ps sync nonce main dirty).ops.take k = (journalOps main ps nonce count dirty).take k := by
  obtain ⟨t, ht, hops⟩ := @flushLocked_split ps nonce count main dirty sync hc
  rw [ht] at hk ⊢
  rw [take_append] at hk ⊢
  cases hu : t.take (k - (journalOps main ps nonce count dirty).length) with
  | nil => rw [append_nil]
  | cons op u =>
    have hmem : op ∈ t.take (k - (journalOps main ps nonce count dirty).length) := by
      rw [hu]; exact mem_cons_self
    have hfalse := hops op (mem_of_mem_take hmem)
    rw [hk op (mem_append_right _ hmem)] at hfalse
    cases hfalse

theorem headerRegion_ok_iff : (∃ region, headerRegion h = .ok region) ↔ journalHeaderLen ≤ h.sectorSize.toNat := by
  unfold headerRegion
  split
  · rename_i hlt
    refine iff_of_false ?_ (Nat.not_le.2 hlt)
    rintro ⟨_, hr⟩
    cases hr
  · rename_i hle
    exact ⟨fun _ => Nat.not_lt.1 hle, fun _ => ⟨_, rfl⟩⟩

theorem mem_journaled (hs : 0 < ps.toNat) (hw : w ∈ journaled main ps count dirty) :
    readPage main ps w.1 = .ok w.2 := by
  refine (mem_preImages hs (fun p hp => ?_) hw).2
  have := mem_takeWhile_imp hp
  unfold readable at this
  split at this
  · exact ⟨_, by assumption⟩
  · cases this

/-- The header announces at least the records that are journaled: pages are
journaled in order, so page number 0 would end them at once. -/
theorem journaled_length_le :
    (journaled main ps count dirty).length ≤ (UInt32.ofNat (toJournal count dirty).length).toNat := by
  have hlen : (journaled main ps count dirty).length ≤ (toJournal count dirty).length := by
    rw [journaled, preImages, length_map]
    exact IsPrefix.length_le (List.takeWhile_prefix _)
  by_cases h0 : (0 : UInt32) ∈ toJournal count dirty
  · have hsorted : (toJournal count dirty).Pairwise fun a b => compare a b = .lt :=
      ExtTreeMap.ordered_keys.filter _
    have hnil : journaled main ps count dirty = [] := by
      cases hl : toJournal count dirty with
      | nil => rw [hl] at h0; cases h0
      | cons p pages =>
        rw [hl] at h0 hsorted
        have hp : p = 0 := by
          rcases mem_cons.1 h0 with h | h
          · exact h.symm
          · have := (pairwise_cons.1 hsorted).1 0 h
            exact absurd (UInt32.lt_iff_toNat_lt.1 (compareOfLessAndEq_eq_lt.1 this)) (Nat.not_lt_zero _)
        rw [journaled, hl, hp, takeWhile_cons_of_neg (by simp [readable, readPage])]
        rfl
    rw [hnil]
    exact Nat.zero_le _
  · have hle := toJournal_length_le h0
    have := count.toNat_lt
    rw [UInt32.toNat_ofNat', Nat.mod_eq_of_lt (by omega)]
    exact hlen

/-! ## The open -/

/-- Two page numbers with the same place. -/
theorem writePages_landing (file : Bytes) (ps : UInt32) (pages : List (UInt32 × Bytes)) :
    writePages file ps (pages.map fun w => (landing w.1, w.2)) = writePages file ps pages := by
  have hoff : ∀ p, pageOffset ps (landing p) = pageOffset ps p := by
    intro p
    unfold landing
    split
    · rename_i h; subst h; rfl
    · rfl
  induction pages generalizing file with
  | nil => rfl
  | cons w pages ih =>
    have e : ∀ v vs, writePages file ps (v :: vs) = writePages (writeAt file v.2 (pageOffset ps v.1)) ps vs :=
      fun _ _ => rfl
    rw [map_cons, e, e, ih]
    simp only [hoff]

/-- Cutting a file to whole pages keeps the pages up to the cut, and only those. -/
theorem readPage_resize {m : Bytes} {q : UInt32} {c : Bytes} (hs : 0 < ps.toNat) :
    (q ≤ count → readPage m ps q = .ok c → readPage (resize m (count.toNat * ps.toNat)) ps q = .ok c) ∧
    (readPage (resize m (count.toNat * ps.toNat)) ps q = .ok c → q ≤ count) := by
  constructor
  · intro hq hm
    obtain ⟨hq0, hml, hsl⟩ := (readPage_ok_iff hs).1 hm
    have hlen : (resize m (count.toNat * ps.toNat)).length = count.toNat * ps.toNat := resize_length _ _
    obtain ⟨c', hc'⟩ := (readPage_of_le hs hlen hq0).1 hq
    have hend := ((readPage_ok_iff hs).1 hc').2.1
    rw [hlen] at hend
    refine (readPage_ok_iff hs).2 ⟨hq0, by rw [hlen]; exact hend, ?_⟩
    rw [← hsl]
    apply ext_getElem?
    intro i
    simp only [slice_getElem?, resize_getElem?]
    grind
  · intro hm
    have hq0 := ((readPage_ok_iff hs).1 hm).1
    exact (readPage_of_le hs (resize_length _ _) hq0).2 ⟨c, hm⟩

/-- Replaying `A` and cutting the file to `count` pages leaves every page
as it was exactly when no page lies behind the cut and the last record on
each page carries its content. -/
theorem replayed_unchanged_iff (hs : 0 < ps.toNat) (hA : ∀ w ∈ A, w.2.length = ps.toNat) :
    (∀ q c, readPage main ps q = .ok c →
      readPage (resize (writePages main ps A) (count.toNat * ps.toNat)) ps q = .ok c) ↔
    (∀ q c, readPage main ps q = .ok c → q ≤ count) ∧
      ∀ q c, lastWrite (A.map fun w => (landing w.1, w.2)) q = some c →
        ∀ c', readPage main ps q = .ok c' → c = c' := by
  have hland : ∀ w ∈ A.map fun w => (landing w.1, w.2), w.1 ≠ 0 ∧ w.2.length = ps.toNat := by
    intro w hw
    obtain ⟨v, hv, rfl⟩ := mem_map.1 hw
    refine ⟨?_, hA v hv⟩
    simp only [landing]
    split
    · decide
    · assumption
  rw [← writePages_landing]
  have hpage := fun q => readPage_writePages main q hs hland
  constructor
  · intro hkeep
    refine ⟨fun q c hq => (readPage_resize hs).2 (hkeep q c hq), fun q c hl c' hq => ?_⟩
    have hw := hpage q
    rw [hl] at hw
    have hle := (readPage_resize hs).2 (hkeep q c' hq)
    have := ((readPage_resize hs).1 hle hw).symm.trans (hkeep q c' hq)
    exact Except.ok.inj this
  · rintro ⟨hcount, hlast⟩ q c hq
    refine (readPage_resize hs).1 (hcount q c hq) ?_
    have hw := hpage q
    cases hl : lastWrite (A.map fun w => (landing w.1, w.2)) q with
    | none => rw [hl] at hw; exact hw c hq
    | some c' =>
      rw [hl] at hw
      rw [hw, hlast q c' hl c hq]

theorem openPager_cold {f : Files} (hc : headerPageCount f.main ps = .ok count)
    (hf : ∀ j, f.journal = some j → journalIsHot j = false) : openPager ps f = .ok f := by
  have hops : openOps f = .ok [] := by
    unfold openOps
    cases hj : f.journal with
    | none => rfl
    | some j => simp only [hf j hj, Bool.false_eq_true, if_false]
  obtain ⟨c, h1⟩ := headerPageCount_readPage hc
  have hm : readMain f.main ps 1 = .ok c := readMain_ok.2 h1
  simp only [openPager, hops, bind, Except.bind, runOps_nil, hm]

theorem runOps_recover (f : Files) (ps : UInt32) (A : List (UInt32 × Bytes)) (len : Nat) :
    runOps ((A.map fun w => .writeMain w.2 (pageOffset ps w.1)) ++ [.truncateMain len, .syncMain, .deleteJournal])
      f = ⟨resize (writePages f.main ps A) len, none⟩ := by
  have e : (A.map fun w => FileOp.writeMain w.2 (pageOffset ps w.1)) = mainWrites ps A := rfl
  rw [runOps_append, e, runOps_mainWrites]
  rfl

/-- An open that leaves every page as it was. -/
def OpensUnchanged (ps : UInt32) (f : Files) : Prop :=
  ∃ f', openPager ps f = .ok f' ∧ ∀ q c, readPage f.main ps q = .ok c → readPage f'.main ps q = .ok c

theorem opensUnchanged_cold {f : Files} (hc : headerPageCount f.main ps = .ok count)
    (hf : ∀ j, f.journal = some j → journalIsHot j = false) : OpensUnchanged ps f :=
  ⟨f, openPager_cold hc hf, fun _ _ hq => hq⟩

theorem opensUnchanged_hot {n : UInt32} {j : Bytes} (hs : 0 < ps.toNat) (hc : headerPageCount main ps = .ok count)
    (hot : journalIsHot j = true) (hparse : JournalHeader.parse j = .ok ⟨n, nonce, count, ps, ps⟩)
    (hreplay : replay ⟨n, nonce, count, ps, ps⟩ j = A) (hA : ∀ w ∈ A, w.2.length = ps.toNat) :
    OpensUnchanged ps ⟨main, some j⟩ ↔
      (∀ q c, readPage main ps q = .ok c → q ≤ count) ∧
        ∀ q c, lastWrite (A.map fun w => (landing w.1, w.2)) q = some c →
          ∀ c', readPage main ps q = .ok c' → c = c' := by
  rw [← replayed_unchanged_iff hs hA]
  have hopen : openPager ps ⟨main, some j⟩ =
      (readMain (resize (writePages main ps A) (count.toNat * ps.toNat)) ps 1).bind fun _ =>
        .ok ⟨resize (writePages main ps A) (count.toNat * ps.toNat), none⟩ := by
    simp only [openPager, openOps, hot, if_true, recoverHotJournal, hparse, hreplay, bind, Except.bind]
    rw [runOps_recover]
  constructor
  · rintro ⟨f', hf', hkeep⟩
    rw [hopen] at hf'
    cases hm : readMain (resize (writePages main ps A) (count.toNat * ps.toNat)) ps 1 with
    | error e => rw [hm] at hf'; cases hf'
    | ok c =>
      rw [hm] at hf'
      cases hf'
      exact hkeep
  · intro hkeep
    obtain ⟨c, h1⟩ := headerPageCount_readPage hc
    have hm := readMain_ok.2 (hkeep 1 c h1)
    exact ⟨_, by rw [hopen, hm]; rfl, hkeep⟩

/-- **Power loss before the sync**: for every flush that has come to its
journal, every number `k` of operations it has performed on it and every
set of surviving sectors, the next open succeeds and leaves every page as it
was if and only if the header is lost or the accepted records are harmless. -/
theorem torn_open_iff (ps nonce count : UInt32) (sync : SynchronousMode) (main : Bytes)
    (dirty : DirtyPages) (k : Nat) (kept : Nat → Bool) (hc : headerPageCount main ps = .ok count)
    (hk : ∀ op ∈ (flushLocked ps sync nonce main dirty).ops.take k, op.onJournal = true) :
    OpensUnchanged ps
        (powerLoss kept (runOps ((flushLocked ps sync nonce main dirty).ops.take k) ⟨main, none⟩)) ↔
      (HeaderSurvives ps count dirty k kept →
        Harmless ps nonce count main kept ((journaled main ps count dirty).take (k - 2))) := by
  rw [take_flushLocked hc hk]
  by_cases hj : toJournal count dirty = []
  · have hops : journalOps main ps nonce count dirty = [] := if_pos hj
    rw [hops, take_nil]
    exact iff_of_true (opensUnchanged_cold hc fun j hj => by cases hj) fun hh => absurd hj hh.2.1
  by_cases hreg : journalHeaderLen ≤ ps.toNat
  · obtain ⟨region, hregion⟩ := headerRegion_ok_iff.2
      (show journalHeaderLen ≤ (⟨UInt32.ofNat (toJournal count dirty).length, nonce, count, ps, ps⟩ :
        JournalHeader).sectorSize.toNat from hreg)
    have hops : journalOps main ps nonce count dirty = .createJournal :: .writeJournal region 0 ::
        recordOps ps nonce 0 (journaled main ps count dirty) := by
      rw [journalOps, if_neg hj, hregion]
    have hs : 0 < ps.toNat := Nat.lt_of_lt_of_le (by decide) hreg
    rw [hops]
    obtain _ | _ | k := k
    · exact iff_of_true (opensUnchanged_cold hc fun j hj => by cases hj) fun hh => absurd hh.1 (by decide)
    · refine iff_of_true (opensUnchanged_cold hc fun j hj => ?_) fun hh => absurd hh.1 (by decide)
      cases hj
      rfl
    · have hR : ∀ w ∈ (journaled main ps count dirty).take k, w.2.length = ps.toNat := fun w hw =>
        readPage_length (mem_journaled hs (mem_of_mem_take hw))
      have hn : ((journaled main ps count dirty).take k).length ≤
          (UInt32.ofNat (toJournal count dirty).length).toNat :=
        Nat.le_trans (length_take_le' _ _) journaled_length_le
      have hfiles : powerLoss kept (runOps ((FileOp.createJournal :: .writeJournal region 0 ::
          recordOps ps nonce 0 (journaled main ps count dirty)).take (k + 2)) ⟨main, none⟩) =
          ⟨main, some (tear kept 0 (writeRecords nonce ps ps region 0
            ((journaled main ps count dirty).take k)))⟩ := by
        have hw : writeAt [] region 0 = region := writeAt_end [] region
        simp only [take_succ_cons, runOps_cons, FileOp.apply, Option.getD_none, Option.getD_some, hw,
          runOps_recordOps, powerLoss, Option.map_some]
      obtain ⟨hlost, hkept⟩ := @replay_tear ps nonce count kept _ region _ hregion hR hn
      rw [hfiles, show k + 1 + 1 - 2 = k from rfl]
      cases h0 : kept 0 with
      | false =>
        refine iff_of_true (opensUnchanged_cold hc fun j hj => ?_) fun hh => ?_
        · cases hj
          exact hlost h0
        · have := hh.2.2.2
          rw [h0] at this
          cases this
      | true =>
        obtain ⟨hot, hparse, hreplay⟩ := hkept h0
        rw [opensUnchanged_hot hs hc hot hparse hreplay (accepted_length 0 hR)]
        exact ⟨fun h _ => ⟨h.1, h.2⟩, fun h =>
          have := h ⟨by omega, hj, hreg, h0⟩
          ⟨this.counted, this.unchanged⟩⟩
  · have hops : journalOps main ps nonce count dirty = [.createJournal] := by
      rw [journalOps, if_neg hj]
      cases hregion : headerRegion ⟨UInt32.ofNat (toJournal count dirty).length, nonce, count, ps, ps⟩ with
      | error e => rfl
      | ok region => exact absurd (headerRegion_ok_iff.1 ⟨region, hregion⟩) hreg
    rw [hops]
    refine iff_of_true ?_ fun hh => absurd hh.2.2.1 hreg
    cases k with
    | zero => exact opensUnchanged_cold hc fun j hj => by cases hj
    | succ k =>
      rw [take_succ_cons, take_nil]
      refine opensUnchanged_cold hc fun j hj => ?_
      cases hj
      rfl

end

/-! ## One lost sector

`onePage` has zeros at the two bytes that the checksum of a 512-byte page
samples, and its record's page number and sampled bytes share sector 1. -/

/-- The power loss after the record of `onePage` is written. -/
def lostSector (n : Nat) : Files :=
  powerLoss (fun s => s != n) (runOps (onePageOps.take 3) ⟨onePage 7, none⟩)

/-- What is left of `onePage` in the torn record. -/
def tornPage : Bytes := List.replicate 511 0 ++ [7]

theorem openPager_lostSector : openPager 512 (lostSector 1) = .ok ⟨tornPage, none⟩ := by decide +kernel

theorem readPage_lostSector : readPage (lostSector 1).main 512 1 = .ok (onePage 7) := by decide +kernel

/-- The power loss comes before the sync, and the next open writes the torn
record, whose page number reads as 0, over page 1. -/
theorem torn_record_overwrites_page_one :
    (∀ op ∈ onePageOps.take 3, op.onJournal = true) ∧ ¬ OpensUnchanged 512 (lostSector 1) := by
  have htorn : readPage tornPage 512 1 = .ok tornPage := by decide +kernel
  have hafter : tornPage ≠ onePage 7 := by decide +kernel
  refine ⟨by decide +kernel, ?_⟩
  rintro ⟨f', hf', hkeep⟩
  have hmain : (⟨tornPage, none⟩ : Files) = f' :=
    Except.ok.inj (openPager_lostSector.symm.trans hf')
  have hread : readPage f'.main 512 1 = .ok (onePage 7) := hkeep 1 _ readPage_lostSector
  rw [← hmain, htorn] at hread
  exact hafter (Except.ok.inj hread)

/-- With the record's checksum lost instead, nothing is replayed. -/
theorem lost_checksum_is_harmless :
    headerPageCount (onePage 7) 512 = .ok 1 ∧ OpensUnchanged 512 (lostSector 2) := by
  have hc : headerPageCount (onePage 7) 512 = .ok 1 := by decide +kernel
  have hacc : accepted 512 5 (fun s => s != 2) 0 ((journaled (onePage 7) 512 1 onePageDirty).take 1) = [] := by
    decide +kernel
  refine ⟨hc, (torn_open_iff 512 5 1 .full (onePage 7) onePageDirty 3 (fun s => s != 2) hc
    (by decide +kernel)).2 fun _ => ⟨fun q c hq => ?_, fun q c hl => ?_⟩⟩
  · have hq0 := ((readPage_ok_iff (by decide)).1 hq).1
    exact (readPage_of_le (by decide) (by decide +kernel) hq0).2 ⟨c, hq⟩
  · rw [hacc] at hl
    cases hl

end DbStorage.Pager
