import DbStorage.Pager.Rollback

/-!
# Crash safety of the rollback journal

The system `rollback` of commits, crashes and recoveries, and its invariant:
at every point of a flush or of a recovery, what the files hold can still be
turned into the committed main file by replaying the journal (`Recoverable`).
-/
namespace DbStorage.Pager
open Bytes Vfs Std List

/-! ## Undoing with pre-images -/

/-- Writing the pre-images `R` over `main` gives back the pages of `e`. -/
structure Undoes (ps : UInt32) (e : Bytes) (R : List (UInt32 × Bytes)) (main : Bytes) : Prop where
  values : ∀ w ∈ R, w.1 ≠ 0 ∧ readPage e ps w.1 = .ok w.2
  rest : ∀ q c, readPage e ps q = .ok c → (∀ w ∈ R, w.1 ≠ q) → readPage main ps q = .ok c

variable {ps : UInt32} {e main : Bytes} {R : List (UInt32 × Bytes)}

variable {p n : UInt32}

/-- Writing a journaled page, or one that `e` does not have, can be undone. -/
theorem Undoes.write (hs : 0 < ps.toNat) (h : Undoes ps e R main) {b : Bytes} (hp : p ≠ 0) (hb : b.length = ps.toNat)
    (hpe : (∃ w ∈ R, w.1 = p) ∨ ∀ c, readPage e ps p ≠ .ok c) : Undoes ps e R (writeAt main b (pageOffset ps p)) := by
  refine ⟨h.values, fun q c hq hR => ?_⟩
  have hpq : p ≠ q := by
    rintro rfl
    rcases hpe with ⟨w, hw, rfl⟩ | hn
    · exact hR w hw rfl
    · exact hn c hq
  exact readPage_writePage_other hp hs hb hpq (h.rest q c hq hR)

theorem Undoes.replayed (hs : 0 < ps.toNat) (h : Undoes ps e R main) {q : UInt32} {c : Bytes}
    (hq : readPage e ps q = .ok c) : readPage (writePages main ps R) ps q = .ok c := by
  have hpages : ∀ w ∈ R, w.1 ≠ 0 ∧ w.2.length = ps.toNat := fun w hw =>
    ⟨(h.values w hw).1, readPage_length (h.values w hw).2⟩
  have hw := readPage_writePages main q hs hpages
  cases hl : lastWrite R q with
  | none =>
    rw [hl] at hw
    exact hw c (h.rest q c hq (lastWrite_eq_none.1 hl))
  | some c' =>
    rw [hl] at hw
    have := (h.values _ (mem_of_lastWrite hl)).2
    rw [hq] at this
    rw [hw, this]

/-- A file that has the pages of `e`, cut to the length of `e`, is `e`. -/
theorem resize_eq_of_pages {m : Bytes} (hs : 0 < ps.toNat) (he : e.length = n.toNat * ps.toNat)
    (hp : ∀ q c, readPage e ps q = .ok c → readPage m ps q = .ok c) : resize m e.length = e := by
  apply ext_getElem?
  intro i
  rw [resize_getElem?]
  rcases Nat.lt_or_ge i e.length with hi | hi
  · -- byte `i` lies on page `i / ps + 1`
    have hdiv : i / ps.toNat < n.toNat := by
      rw [Nat.div_lt_iff_lt_mul hs, ← he]; exact hi
    have hn := n.toNat_lt
    have hq : (UInt32.ofNat (i / ps.toNat + 1)).toNat = i / ps.toNat + 1 := by
      rw [UInt32.toNat_ofNat', Nat.mod_eq_of_lt (by omega)]
    have hoff : pageOffset ps (UInt32.ofNat (i / ps.toNat + 1)) = i / ps.toNat * ps.toNat := by
      rw [pageOffset, hq, Nat.add_sub_cancel]
    have hmod := Nat.div_add_mod i ps.toNat
    have hlt := Nat.mod_lt i hs
    rw [Nat.mul_comm] at hmod
    have hend : i / ps.toNat * ps.toNat + ps.toNat ≤ e.length := by
      rw [he, ← Nat.succ_mul]; exact Nat.mul_le_mul_right _ hdiv
    have hq0 : UInt32.ofNat (i / ps.toNat + 1) ≠ 0 := by
      intro h0
      rw [h0] at hq
      exact absurd hq.symm (Nat.succ_ne_zero _)
    have hre := hp (UInt32.ofNat (i / ps.toNat + 1)) _ ((readPage_ok_iff hs).2
      ⟨hq0, by rw [hoff]; exact hend, rfl⟩)
    obtain ⟨-, hml, hsl⟩ := (readPage_ok_iff hs).1 hre
    rw [hoff] at hml hsl
    have hb := congrArg (·[i % ps.toNat]?) hsl
    simp only [slice_getElem?, hlt, if_true, hmod] at hb
    rw [← hb]
    grind
  · grind

/-! ## What the next open makes of the files -/

/-- The header's page count is the file's page count. -/
def CountOk (ps : UInt32) (main : Bytes) : Prop :=
  ∃ count, headerPageCount main ps = .ok count ∧ main.length = count.toNat * ps.toNat

/-- No hot journal; what a `-journal` file still holds are older records. -/
def Settled (ps : UInt32) (nonces : List UInt32) (f : Files) : Prop :=
  ∀ j, f.journal = some j → journalIsHot j = false ∧ OlderRecords ps ps nonces j

/-- The next open that completes leaves the main file `e`. -/
inductive Recoverable (ps : UInt32) (nonces : List UInt32) (e : Bytes) (f : Files) : Prop where
  | clean : f.main = e → Settled ps nonces f → Recoverable ps nonces e f
  | hot (j : Bytes) (h : JournalHeader) : f.journal = some j → journalIsHot j = true →
      JournalHeader.parse j = .ok h → h.pageSize = ps → h.initialPageCount.toNat * ps.toNat = e.length →
      Undoes ps e (replay h j) f.main → Recoverable ps nonces e f

/-- Before each of the operations `todo` the files lead back to `before`, and
after all of them the main file is `after`. -/
structure Safe (ps : UInt32) (nonces : List UInt32) (before after : Bytes) (f : Files)
    (todo : List FileOp) : Prop where
  crash : ∀ k, k < todo.length → Recoverable ps nonces before (runOps (todo.take k) f)
  main : (runOps todo f).main = after
  settled : Settled ps nonces (runOps todo f)

variable {nonces : List UInt32} {before after : Bytes} {f : Files} {op : FileOp} {todo : List FileOp}

theorem Safe.step (h : Safe ps nonces before after f (op :: todo)) :
    Safe ps nonces before after (op.apply f) todo :=
  ⟨fun k hk => h.crash (k + 1) (Nat.succ_lt_succ hk), h.main, h.settled⟩

theorem Safe.head (h : Safe ps nonces before after f (op :: todo)) :
    Recoverable ps nonces before f := h.crash 0 (Nat.succ_pos _)

theorem Safe.nil (h : Safe ps nonces before after f []) : f.main = after ∧ Settled ps nonces f :=
  ⟨h.main, h.settled⟩

theorem settled_deleted (main : Bytes) : Settled ps nonces ⟨main, none⟩ := by
  intro j hj; cases hj

theorem CountOk.pos (h : CountOk ps main) : 0 < ps.toNat := by
  obtain ⟨c, hc, -⟩ := h
  rcases Nat.eq_zero_or_pos ps.toNat with h0 | hp
  · simp only [headerPageCount, readMain, readPage, h0] at hc
    simp [slice, readBeU32, getRange, pageCountOffset, Except.mapError, bind, Except.bind] at hc
  · exact hp

/-! ## Recovering -/

/-- Recovery of a hot journal: every operation keeps the undo log usable, and
all of them together give back `e`. -/
theorem safe_recover {j : Bytes} {h : JournalHeader} (hs : 0 < ps.toNat) (he : e.length = n.toNat * ps.toNat)
    (hj : f.journal = some j) (hot : journalIsHot j = true) (hp : JournalHeader.parse j = .ok h) (hps : h.pageSize = ps)
    (hlen : h.initialPageCount.toNat * ps.toNat = e.length) (hu : Undoes ps e (replay h j) f.main) :
    Safe ps nonces e e f (mainWrites ps (replay h j) ++
      [.truncateMain e.length, .syncMain, .deleteJournal]) := by
  have hrec : ∀ g : Files, g.journal = some j ∧ Undoes ps e (replay h j) g.main →
      Recoverable ps nonces e g := fun g hg => .hot j h hg.1 hot hp hps hlen hg.2
  -- every replay write puts back a pre-image
  have hkeep : ∀ op ∈ mainWrites ps (replay h j), ∀ g : Files,
      g.journal = some j ∧ Undoes ps e (replay h j) g.main →
      (op.apply g).journal = some j ∧ Undoes ps e (replay h j) (op.apply g).main := by
    intro op hop g hg
    obtain ⟨w, hw, rfl⟩ := mem_map.1 hop
    obtain ⟨h0, hv⟩ := hu.values w hw
    exact ⟨hg.1, hg.2.write hs h0 (readPage_length hv) (.inl ⟨w, hw, rfl⟩)⟩
  have hall : runOps (mainWrites ps (replay h j)) f =
      ⟨writePages f.main ps (replay h j), some j⟩ := by rw [runOps_mainWrites, hj]
  have htrunc : resize (writePages f.main ps (replay h j)) e.length = e :=
    resize_eq_of_pages hs he fun q c hq => hu.replayed hs hq
  have hback : Undoes ps e (replay h j) e := ⟨hu.values, fun _ _ hq _ => hq⟩
  constructor
  · apply forall_take_append
    · intro k _
      exact hrec _ (runOps_take_of_keeps hkeep k ⟨hj, hu⟩)
    · intro k hk
      rw [hall]
      have hwritten : Undoes ps e (replay h j) (writePages f.main ps (replay h j)) := by
        have := (runOps_take_of_keeps hkeep (mainWrites ps (replay h j)).length
          (f := f) ⟨hj, hu⟩).2
        rwa [take_length, hall] at this
      match k, hk with
      | 0, _ => exact hrec _ ⟨rfl, hwritten⟩
      | 1, _ =>
        refine hrec _ ⟨rfl, ?_⟩
        simpa only [take_succ_cons, take_zero, runOps_cons, runOps_nil, FileOp.apply,
          htrunc] using hback
      | 2, _ =>
        refine hrec _ ⟨rfl, ?_⟩
        simpa only [take_succ_cons, take_zero, runOps_cons, runOps_nil, FileOp.apply,
          htrunc] using hback
  · rw [runOps_append, hall]
    simp only [runOps_cons, runOps_nil, FileOp.apply, htrunc]
  · rw [runOps_append, hall]
    simp only [runOps_cons, runOps_nil, FileOp.apply]
    exact settled_deleted _

/-- An open of recoverable files does not fail and is safe to interrupt. -/
theorem safe_open (hc : CountOk ps e) (hr : Recoverable ps nonces e f) :
    ∃ ops, openOps f = .ok ops ∧ Safe ps nonces e e f ops := by
  obtain ⟨n, -, hn⟩ := id hc
  cases hr with
  | clean hm hset =>
    refine ⟨[], ?_, ⟨fun k hk => absurd hk (Nat.not_lt_zero k), hm, hset⟩⟩
    unfold openOps
    split
    · rfl
    · rename_i j hj
      rw [(hset j hj).1]
      rfl
  | hot j h hj hhot hp hps hlen hu =>
    refine ⟨_, ?_, safe_recover hc.pos hn hj hhot hp hps hlen hu⟩
    simp only [openOps, hj, hhot, if_true, recoverHotJournal, hp]
    rw [hps, hlen]
    rfl

/-! ## Committing -/

theorem writeRecords_head {nonce ss ps : UInt32} {R : List (UInt32 × Bytes)} (j : Bytes) (i : Nat)
    (hss : 28 ≤ ss.toNat) (hR : ∀ w ∈ R, w.2.length = ps.toNat)
    (hj : recordOffset ss ps i ≤ j.length) :
    28 ≤ (writeRecords nonce ss ps j i R).length ∧
      slice (writeRecords nonce ss ps j i R) 0 28 = slice j 0 28 := by
  have h0 : recordOffset ss ps 0 = ss.toNat := by simp [recordOffset]
  have hoff := recordOffset_mono ss ps (Nat.zero_le i)
  induction R generalizing j i with
  | nil => exact ⟨by simp only [writeRecords]; omega, rfl⟩
  | cons w R ih =>
    have hw : slice (writeAt j (recordBytes nonce w.1 w.2) (recordOffset ss ps i)) 0 28 =
        slice j 0 28 := slice_writeAt_before _ _ _ _ _ (by omega) (by omega)
    have hsucc := recordOffset_succ ss ps i
    have hl := @recordBytes_length nonce w.1 ps w.2 (hR w mem_cons_self)
    have := ih (writeAt j (recordBytes nonce w.1 w.2) (recordOffset ss ps i)) (i + 1)
      (fun v hv => hR v (mem_cons_of_mem _ hv)) (by rw [writeAt_length]; omega) (by omega)
    rwa [hw] at this

theorem andThen_error {a b : Plan} (h : (a.andThen b).error = none) : a.error = none ∧ b.error = none := by
  unfold Plan.andThen at h
  cases ha : a.error with
  | some e => rw [ha] at h; cases h
  | none => rw [ha] at h; exact ⟨rfl, h⟩

theorem writeDirty_error {pages : List (UInt32 × Bytes)} (h : (writeDirty ps pages).error = none) :
    ∀ w ∈ pages, w.1 ≠ 0 ∧ w.2.length = ps.toNat := by
  induction pages with
  | nil => intro w hw; cases hw
  | cons v pages ih =>
    rw [writeDirty] at h
    split at h
    · cases h
    · split at h
      · cases h
      · rename_i h0 hl
        intro w hw
        rcases mem_cons.1 hw with rfl | hw
        · exact ⟨h0, not_not.1 hl⟩
        · exact ih (andThen_error h).2 w hw

theorem readPage_of_le {count : UInt32} (hs : 0 < ps.toNat) (hl : main.length = count.toNat * ps.toNat) (hp : p ≠ 0) :
    p ≤ count ↔ ∃ c, readPage main ps p = .ok c := by
  have hp' : p.toNat ≠ 0 := fun h0 => hp (UInt32.toNat_inj.1 h0)
  have hmul : pageOffset ps p + ps.toNat = p.toNat * ps.toNat := by
    rw [pageOffset, ← Nat.succ_mul]; congr 1; omega
  constructor
  · intro hle
    refine ⟨_, (readPage_ok_iff hs).2 ⟨hp, ?_, rfl⟩⟩
    rw [hmul, hl]
    exact Nat.mul_le_mul_right _ (UInt32.le_iff_toNat_le.1 hle)
  · rintro ⟨c, hc⟩
    have := ((readPage_ok_iff hs).1 hc).2.1
    rw [hmul, hl] at this
    exact UInt32.le_iff_toNat_le.2 (Nat.le_of_mul_le_mul_right this hs)

variable {sync : SynchronousMode} {nonce count : UInt32} {dirty : DirtyPages}

/-- The pages that a flush journals are pages of the file. -/
theorem readPage_of_mem_toJournal (hs : 0 < ps.toNat) (hl : main.length = count.toNat * ps.toNat)
    (hwf : ∀ w ∈ dirty.toList, w.1 ≠ 0 ∧ w.2.length = ps.toNat) (hp : p ∈ toJournal count dirty) :
    p ≠ 0 ∧ ∃ c, readPage main ps p = .ok c := by
  obtain ⟨⟨b, hb⟩, hle⟩ := mem_toJournal.1 hp
  have h0 := (hwf _ hb).1
  exact ⟨h0, (readPage_of_le hs hl h0).1 hle⟩

/-- The operations of a flush that journals something and succeeds. -/
theorem flushLocked_ops (hc : headerPageCount main ps = .ok count)
    (hl : main.length = count.toNat * ps.toNat)
    (herr : (flushLocked ps sync nonce main dirty).error = none)
    (hj : toJournal count dirty ≠ []) :
    ∃ region, headerRegion ⟨UInt32.ofNat (toJournal count dirty).length, nonce, count, ps, ps⟩ = .ok region ∧
      (∀ w ∈ dirty.toList, w.1 ≠ 0 ∧ w.2.length = ps.toNat) ∧
      (flushLocked ps sync nonce main dirty).ops =
        [.createJournal, .writeJournal region 0] ++
          (recordOps ps nonce 0 (preImages main ps (toJournal count dirty)) ++
          ((if sync ≠ .off then [.syncJournal] else []) ++ (mainWrites ps dirty.toList ++
          ((if sync = .full then [.syncMain] else []) ++ [.deleteJournal])))) := by
  have hs : 0 < ps.toNat := CountOk.pos ⟨count, hc, hl⟩
  have hfold : dirty.keys.filter (· ≤ count) = toJournal count dirty := rfl
  simp only [flushLocked, hc, hfold] at herr
  have h1 := (andThen_error (andThen_error herr).1)
  have hwf := writeDirty_error h1.2
  have hread := fun p hp => (readPage_of_mem_toJournal (p := p) hs hl hwf hp).2
  have h2 := h1.1
  simp only [journalPart, if_neg hj] at h2
  cases hreg : headerRegion ⟨UInt32.ofNat (toJournal count dirty).length, nonce, count, ps, ps⟩ with
  | error e => rw [hreg] at h2; cases h2
  | ok region => exact ⟨region, rfl, hwf, by rw [flushLocked_journaled hc hwf hread hj hreg]⟩

theorem toJournal_length_le (h : 0 ∉ toJournal count dirty) : (toJournal count dirty).length ≤ count.toNat := by
  have hnodup : ((toJournal count dirty).map UInt32.toNat).Nodup := by
    refine List.Nodup.map (fun a b hab => UInt32.toNat_inj.1 hab) ?_
    exact ExtTreeMap.nodup_keys.filter _
  have hsub : (toJournal count dirty).map UInt32.toNat ⊆ List.range' 1 count.toNat := by
    intro n hn
    obtain ⟨p, hp, rfl⟩ := mem_map.1 hn
    have h0 : p.toNat ≠ 0 := fun h0 => h ((UInt32.toNat_inj.1 h0 : p = 0) ▸ hp)
    have hle := UInt32.le_iff_toNat_le.1 (mem_toJournal.1 hp).2
    rw [mem_range'_1]
    omega
  have := (hnodup.subperm hsub).length_le
  rwa [length_map, length_range'] at this

theorem mem_preImages {pages : List UInt32} {w : UInt32 × Bytes} (hs : 0 < ps.toNat)
    (hread : ∀ p ∈ pages, ∃ c, readPage main ps p = .ok c) (hw : w ∈ preImages main ps pages) :
    w.1 ∈ pages ∧ readPage main ps w.1 = .ok w.2 := by
  obtain ⟨p, hp, rfl⟩ := mem_map.1 hw
  obtain ⟨c, hc⟩ := hread p hp
  refine ⟨hp, ?_⟩
  rw [hc, ← ((readPage_ok_iff hs).1 hc).2.2]

/-- The records of a flush are as many as the header announces, and each is a
page as it is in the file. -/
theorem preImages_toJournal (hs : 0 < ps.toNat) (hl : main.length = count.toNat * ps.toNat)
    (hwf : ∀ w ∈ dirty.toList, w.1 ≠ 0 ∧ w.2.length = ps.toNat) :
    (preImages main ps (toJournal count dirty)).length = (UInt32.ofNat (toJournal count dirty).length).toNat ∧
      ∀ w ∈ preImages main ps (toJournal count dirty), w.1 ≠ 0 ∧ readPage main ps w.1 = .ok w.2 := by
  have hmem := fun p hp => readPage_of_mem_toJournal (p := p) hs hl hwf hp
  refine ⟨?_, fun w hw => ?_⟩
  · have h1 := toJournal_length_le fun h => (hmem 0 h).1 rfl
    have h2 := count.toNat_lt
    rw [UInt32.toNat_ofNat', Nat.mod_eq_of_lt (by omega), preImages, length_map]
  · obtain ⟨hp, hval⟩ := mem_preImages hs (fun p hp => (hmem p hp).2) hw
    exact ⟨(hmem _ hp).1, hval⟩

/-- The journal while its records are written: hot, and a replay applies
exactly the records that are there. -/
theorem hot_journal {j region : Bytes} (k : Nat) (hreg : headerRegion ⟨n, nonce, count, ps, ps⟩ = .ok region)
    (hold : OlderRecords ps ps nonces j) (hnew : nonce ∉ nonces) (hR : ∀ w ∈ R, w.2.length = ps.toNat)
    (hn : R.length = n.toNat) : let jk := writeRecords nonce ps ps (writeAt j region 0) 0 (R.take k)
    journalIsHot jk = true ∧ JournalHeader.parse jk = .ok ⟨n, nonce, count, ps, ps⟩ ∧
      replay ⟨n, nonce, count, ps, ps⟩ jk = R.take k := by
  intro jk
  obtain ⟨hrl, h28, hser⟩ := headerRegion_length hreg
  simp only at hrl
  have hRk : ∀ w ∈ R.take k, w.2.length = ps.toNat := fun w hw => hR w (mem_of_mem_take hw)
  have h0 : recordOffset ps ps 0 = ps.toNat := by simp [recordOffset]
  have hhead := @writeRecords_head nonce ps ps (R.take k) (writeAt j region 0) 0 (by omega) hRk
    (by rw [writeAt_length]; omega)
  have hslice : slice jk 0 28 = JournalHeader.serialize ⟨n, nonce, count, ps, ps⟩ journalMagic := by
    rw [← hser, hhead.2]
    rw [slice_writeAt_inside _ _ _ _ _ (Nat.le_refl _) (by omega)]
  refine ⟨?_, parse_headerRegion hhead.1 hslice, ?_⟩
  · have h8 : slice jk 0 8 = slice (slice jk 0 28) 0 8 := by
      rw [slice_slice _ _ _ _ _ (by omega)]
    rw [journalIsHot, h8, hslice]
    simp [JournalHeader.serialize, journalMagic, slice]
  · refine replay_writeRecords (h := ⟨n, nonce, count, ps, ps⟩) hreg hold hnew hRk ?_
    simp only [length_take]
    omega

theorem not_mem_recordOps (i : Nat) : FileOp.deleteJournal ∉ recordOps ps nonce i R := by
  induction R generalizing i with
  | nil => exact not_mem_nil
  | cons w R ih => simp [recordOps, ih]

theorem olderRecords_nil : OlderRecords ps ps nonces [] := by
  intro i p d ck hr
  rw [recordAt_eq, if_neg (by simp [recordLen])] at hr
  cases hr

theorem OlderRecords.cons {j : Bytes} (h : OlderRecords ps ps nonces j) (nonce : UInt32) :
    OlderRecords ps ps (nonce :: nonces) j := by
  intro i p d ck hr
  obtain ⟨n, hn, hck⟩ := h i p d ck hr
  exact ⟨n, mem_cons_of_mem _ hn, hck⟩

/-- Behind the records every write to the file is covered by them. -/
theorem undoes_late {j : Bytes} (hs : 0 < ps.toNat) (hl : main.length = count.toNat * ps.toNat)
    (hwf : ∀ w ∈ dirty.toList, w.1 ≠ 0 ∧ w.2.length = ps.toNat) :
    ∀ op ∈ (if sync ≠ .off then [FileOp.syncJournal] else []) ++
      (mainWrites ps dirty.toList ++ (if sync = .full then [FileOp.syncMain] else [])), ∀ g : Files,
      (g.journal = some j ∧ Undoes ps main (preImages main ps (toJournal count dirty)) g.main) →
      (op.apply g).journal = some j ∧
        Undoes ps main (preImages main ps (toJournal count dirty)) (op.apply g).main := by
  intro op hop g hg
  rcases mem_append.1 hop with hop | hop
  · split at hop
    · rw [mem_singleton.1 hop]; exact hg
    · cases hop
  · rcases mem_append.1 hop with hop | hop
    · obtain ⟨w, hw, rfl⟩ := mem_map.1 hop
      obtain ⟨h0, hb⟩ := hwf w hw
      refine ⟨hg.1, hg.2.write hs h0 hb ?_⟩
      by_cases hle : w.1 ≤ count
      · exact .inl ⟨_, mem_map.2 ⟨w.1, mem_toJournal.2 ⟨⟨w.2, hw⟩, hle⟩, rfl⟩, rfl⟩
      · exact .inr fun c hc => hle ((readPage_of_le hs hl h0).2 ⟨c, hc⟩)
    · split at hop
      · rw [mem_singleton.1 hop]; exact hg
      · cases hop

/-- A flush can be interrupted before each of its operations. -/
theorem safe_flush (hc : headerPageCount f.main ps = .ok count)
    (hl : f.main.length = count.toNat * ps.toNat) (hset : Settled ps nonces f) (hnew : nonce ∉ nonces)
    (herr : (flushLocked ps sync nonce f.main dirty).error = none)
    (hj : toJournal count dirty ≠ []) :
    ∃ t, (flushLocked ps sync nonce f.main dirty).ops = t ++ [.deleteJournal] ∧
      FileOp.deleteJournal ∉ t ∧
      Safe ps (nonce :: nonces) f.main (runOps (flushLocked ps sync nonce f.main dirty).ops f).main f
        (flushLocked ps sync nonce f.main dirty).ops := by
  have hs : 0 < ps.toNat := CountOk.pos ⟨count, hc, hl⟩
  obtain ⟨region, hreg, hwf, hops⟩ := flushLocked_ops hc hl herr hj
  obtain ⟨hnat, hRval⟩ := preImages_toJournal hs hl hwf
  have hkeep := fun j => @undoes_late ps f.main sync count dirty j hs hl hwf
  generalize preImages f.main ps (toJournal count dirty) = R at *
  -- the journal over which the header is written
  have hold : OlderRecords ps ps nonces (f.journal.getD []) := by
    cases hjo : f.journal with
    | none => exact olderRecords_nil
    | some j => exact (hset j hjo).2
  have hhot := fun k => hot_journal k hreg hold hnew (fun w hw => readPage_length (hRval w hw).2) hnat
  generalize hj0 : writeAt (f.journal.getD []) region 0 = j0 at hhot
  have hlen : count.toNat * ps.toNat = f.main.length := hl.symm
  have hstart : runOps [.createJournal, .writeJournal region 0] f = ⟨f.main, some j0⟩ := by
    simp only [runOps_cons, runOps_nil, FileOp.apply, Option.getD_some, hj0]
  have hjournaled : runOps (recordOps ps nonce 0 R) ⟨f.main, some j0⟩ =
      ⟨f.main, some (writeRecords nonce ps ps j0 0 R)⟩ := by
    have := runOps_recordOps ps nonce 0 R.length R f.main j0
    rwa [take_of_length_le (Nat.le_of_eq (recordOps_length ..)), take_length] at this
  have hfull := hhot R.length
  simp only [take_length] at hfull
  generalize hK : (if sync ≠ .off then [FileOp.syncJournal] else []) ++
    (mainWrites ps dirty.toList ++ (if sync = .full then [FileOp.syncMain] else [])) = K at hkeep
  have hops' : (flushLocked ps sync nonce f.main dirty).ops =
      [.createJournal, .writeJournal region 0] ++
        (recordOps ps nonce 0 R ++ (K ++ [.deleteJournal])) := by
    rw [hops, ← hK]; simp only [append_assoc]
  refine ⟨[.createJournal, .writeJournal region 0] ++ (recordOps ps nonce 0 R ++ K), ?_, ?_, ?_, rfl, ?_⟩
  · rw [hops']; simp only [append_assoc]
  · rw [← hK]
    simp only [mem_append, mem_cons, not_mem_recordOps, mainWrites, mem_map]
    grind
  · rw [hops']
    apply forall_take_append
    · -- before the header is written there is no hot journal
      intro k hk
      obtain rfl | rfl : k = 0 ∨ k = 1 := by
        simp only [length_cons, length_nil] at hk
        omega
      · exact .clean rfl fun j hjo => ⟨(hset j hjo).1, (hset j hjo).2.cons nonce⟩
      · refine .clean rfl fun j hjo => ?_
        cases hjo
        refine ⟨?_, hold.cons nonce⟩
        cases hjo : f.journal with
        | none => rfl
        | some j => exact (hset j hjo).1
    · rw [hstart]
      apply forall_take_append
      · -- a journal of the first `k` records restores what is still there
        intro k _
        rw [runOps_recordOps]
        refine .hot _ _ rfl (hhot k).1 (hhot k).2.1 rfl hlen ?_
        rw [(hhot k).2.2]
        exact ⟨fun w hw => hRval w (mem_of_mem_take hw), fun _ _ hq _ => hq⟩
      · -- from here on the journal is complete
        rw [hjournaled]
        intro k hk
        rw [length_append, length_singleton] at hk
        rw [take_append_of_le_length (by omega)]
        obtain ⟨hjk, hu⟩ := runOps_take_of_keeps (hkeep _) k
          (f := ⟨f.main, some (writeRecords nonce ps ps j0 0 R)⟩) ⟨rfl, hRval, fun _ _ hq _ => hq⟩
        exact .hot _ _ hjk hfull.1 hfull.2.1 rfl hlen (by rw [hfull.2.2]; exact hu)
  · rw [hops', ← append_assoc, ← append_assoc, runOps_append]
    exact settled_deleted _

theorem headerPageCount_congr {a b : Bytes} (h : readPage a ps 1 = readPage b ps 1) :
    headerPageCount a ps = headerPageCount b ps := by
  simp only [headerPageCount, readMain, h]

theorem headerPageCount_readPage (hc : headerPageCount main ps = .ok count) :
    ∃ c, readPage main ps 1 = .ok c := by
  cases hr : readPage main ps 1 with
  | ok c => exact ⟨c, rfl⟩
  | error e =>
    simp only [headerPageCount, readMain, hr, Except.mapError, bind, Except.bind] at hc
    cases hc

/-- A transaction that leaves the header's page count right changes a page
that existed before: only page 1 can record that the file grew. -/
theorem toJournal_ne_nil (hc : headerPageCount f.main ps = .ok count)
    (hl : f.main.length = count.toNat * ps.toNat)
    (herr : (flushLocked ps sync nonce f.main dirty).error = none) (hd : dirty.toList ≠ [])
    (hafter : CountOk ps (runOps (flushLocked ps sync nonce f.main dirty).ops f).main) :
    toJournal count dirty ≠ [] := by
  intro hj
  have hs : 0 < ps.toNat := CountOk.pos ⟨count, hc, hl⟩
  have hfold : dirty.keys.filter (· ≤ count) = toJournal count dirty := rfl
  simp only [flushLocked, hc, hfold, hj, journalPart, if_true, append_nil] at herr hafter
  have hwf := writeDirty_error (andThen_error (andThen_error herr).1).2
  rw [writeDirty_eq hwf, andThen_ops rfl, andThen_ops rfl, nil_append, runOps_append,
    runOps_mainWrites] at hafter
  have hm : (runOps (if sync = .full then [.syncMain] else [])
      { f with main := writePages f.main ps dirty.toList }).main = writePages f.main ps dirty.toList := by
    split <;> rfl
  rw [hm] at hafter
  obtain ⟨count', hc', hl'⟩ := hafter
  have hbig : ∀ w ∈ dirty.toList, ¬ w.1 ≤ count := by
    intro w hw hle
    have := mem_toJournal.2 ⟨⟨w.2, hw⟩, hle⟩
    rw [hj] at this
    cases this
  have hread := fun q => readPage_writePages f.main q hs hwf
  obtain ⟨c1, h1⟩ := headerPageCount_readPage hc
  have hsame : readPage (writePages f.main ps dirty.toList) ps 1 = .ok c1 := by
    have hnone : lastWrite dirty.toList 1 = none := lastWrite_eq_none.2 fun w hw h => by
      refine hbig w hw ?_
      rw [h]
      exact (readPage_of_le hs hl (by decide)).2 ⟨c1, h1⟩
    have := hread 1
    rw [hnone] at this
    exact this c1 h1
  have hcount : count' = count := by
    rw [headerPageCount_congr (hsame.trans h1.symm), hc] at hc'
    exact (Except.ok.inj hc').symm
  obtain ⟨w, hw⟩ := exists_mem_of_ne_nil _ hd
  refine hbig w hw ?_
  rw [← hcount]
  refine (readPage_of_le hs hl' (hwf w hw).1).2 ?_
  have := hread w.1
  cases hlw : lastWrite dirty.toList w.1 with
  | some c => rw [hlw] at this; exact ⟨c, this⟩
  | none => exact absurd rfl (lastWrite_eq_none.1 hlw w hw)

/-! ## The system -/

/-- What the process is doing: nothing, the rest of a flush, nothing because
it has crashed, or the rest of a recovery. -/
inductive Phase where
  | idle
  | flushing (after : Bytes) (todo : List FileOp)
  | crashed
  | recovering (todo : List FileOp)

/-- `committed` is the main file before the last transaction while its
journal is not deleted, and the one after it from then on; `nonces` are the
nonces of all journals so far. -/
structure RollbackDb where
  files : Files
  committed : Bytes
  phase : Phase
  nonces : List UInt32

inductive RollbackAct where
  | flush (dirty : DirtyPages) (nonce : UInt32)
  | op
  | done
  | crash
  | reopen

/-- One file operation of a flush or a recovery, the start or the end of one,
or a crash. A flush starts with pages to write, succeeds if it is not
interrupted, draws a new nonce and leaves the header's page count right. -/
inductive RollbackStep (ps : UInt32) (sync : SynchronousMode) :
    RollbackDb → RollbackAct → RollbackDb → Prop where
  | flush (s : RollbackDb) (dirty : DirtyPages) (nonce : UInt32) : s.phase = .idle →
      dirty.toList ≠ [] → nonce ∉ s.nonces →
      (flushLocked ps sync nonce s.files.main dirty).error = none →
      CountOk ps (runOps (flushLocked ps sync nonce s.files.main dirty).ops s.files).main →
      RollbackStep ps sync s (.flush dirty nonce)
        { s with
          phase := .flushing (runOps (flushLocked ps sync nonce s.files.main dirty).ops s.files).main
            (flushLocked ps sync nonce s.files.main dirty).ops
          nonces := nonce :: s.nonces }
  | flushOp (s : RollbackDb) (after : Bytes) (op : FileOp) (todo : List FileOp) :
      s.phase = .flushing after (op :: todo) →
      RollbackStep ps sync s .op
        { s with
          files := op.apply s.files
          committed := if op = .deleteJournal then after else s.committed
          phase := .flushing after todo }
  | flushed (s : RollbackDb) (after : Bytes) : s.phase = .flushing after [] →
      RollbackStep ps sync s .done { s with phase := .idle }
  | crash (s : RollbackDb) : RollbackStep ps sync s .crash { s with phase := .crashed }
  | reopen (s : RollbackDb) (ops : List FileOp) : s.phase = .crashed → openOps s.files = .ok ops →
      RollbackStep ps sync s .reopen { s with phase := .recovering ops }
  | recoverOp (s : RollbackDb) (op : FileOp) (todo : List FileOp) :
      s.phase = .recovering (op :: todo) →
      RollbackStep ps sync s .op { s with files := op.apply s.files, phase := .recovering todo }
  | opened (s : RollbackDb) : s.phase = .recovering [] →
      RollbackStep ps sync s .done { s with phase := .idle }

/-- A database whose header's page count is right, with no hot journal; an
older journal may have left records behind. -/
def rollback (ps : UInt32) (sync : SynchronousMode) : LTS RollbackDb RollbackAct where
  init s := s.phase = .idle ∧ s.files.main = s.committed ∧ CountOk ps s.committed ∧
    Settled ps s.nonces s.files
  step := RollbackStep ps sync

def PhaseInv (ps : UInt32) (s : RollbackDb) : Prop :=
  match s.phase with
  | .idle => s.files.main = s.committed ∧ Settled ps s.nonces s.files
  | .flushing after todo => CountOk ps after ∧
      ((todo = [] ∧ s.committed = after ∧ s.files.main = after ∧ Settled ps s.nonces s.files) ∨
        ∃ t, todo = t ++ [.deleteJournal] ∧ FileOp.deleteJournal ∉ t ∧
          Safe ps s.nonces s.committed after s.files todo)
  | .crashed => Recoverable ps s.nonces s.committed s.files
  | .recovering todo => Safe ps s.nonces s.committed s.committed s.files todo

structure RollbackInv (ps : UInt32) (s : RollbackDb) : Prop where
  count : CountOk ps s.committed
  phase : PhaseInv ps s

theorem RollbackInv.flush {s : RollbackDb} (hi : RollbackInv ps s) (hidle : s.phase = .idle)
    (hd : dirty.toList ≠ []) (hnew : nonce ∉ s.nonces)
    (herr : (flushLocked ps sync nonce s.files.main dirty).error = none)
    (hafter : CountOk ps (runOps (flushLocked ps sync nonce s.files.main dirty).ops s.files).main) :
    RollbackInv ps { s with
      phase := .flushing (runOps (flushLocked ps sync nonce s.files.main dirty).ops s.files).main
        (flushLocked ps sync nonce s.files.main dirty).ops
      nonces := nonce :: s.nonces } := by
  have hp := hi.phase
  rw [PhaseInv, hidle] at hp
  obtain ⟨hm, hset⟩ := hp
  obtain ⟨count, hc, hl⟩ := hi.count
  rw [← hm] at hc hl
  obtain ⟨t, ht, hdel, hsafe⟩ := safe_flush hc hl hset hnew herr
    (toJournal_ne_nil hc hl herr hd hafter)
  refine ⟨hi.count, hafter, .inr ⟨t, ht, hdel, ?_⟩⟩
  rw [← hm]
  exact hsafe

/-- The commit point is the deletion of the journal. -/
theorem RollbackInv.flushOp {s : RollbackDb} {after : Bytes} (hi : RollbackInv ps s)
    (hph : s.phase = .flushing after (op :: todo)) :
    RollbackInv ps { s with
      files := op.apply s.files
      committed := if op = .deleteJournal then after else s.committed
      phase := .flushing after todo } := by
  have hp := hi.phase
  rw [PhaseInv, hph] at hp
  obtain ⟨hcount, ⟨h0, -⟩ | ⟨t, ht, hdel, hsafe⟩⟩ := hp
  · cases h0
  · cases t with
    | nil =>
      simp only [nil_append, List.cons.injEq] at ht
      obtain ⟨rfl, rfl⟩ := ht
      obtain ⟨hmain, hset⟩ := hsafe.step.nil
      refine ⟨by simpa using hcount, hcount, .inl ⟨rfl, by simp, hmain, hset⟩⟩
    | cons o t =>
      simp only [cons_append, List.cons.injEq] at ht
      obtain ⟨rfl, rfl⟩ := ht
      have hne : op ≠ .deleteJournal := fun h => hdel (h ▸ mem_cons_self)
      simp only [if_neg hne]
      exact ⟨hi.count, hcount, .inr ⟨t, rfl, fun h => hdel (mem_cons_of_mem _ h), hsafe.step⟩⟩

variable {s : RollbackDb}

theorem RollbackInv.crash (hi : RollbackInv ps s) : RollbackInv ps { s with phase := .crashed } := by
  refine ⟨hi.count, ?_⟩
  have hp := hi.phase
  unfold PhaseInv at hp
  show Recoverable ps s.nonces s.committed s.files
  split at hp
  · exact .clean hp.1 hp.2
  · obtain ⟨-, ⟨-, hcm, hmain, hset⟩ | ⟨t, ht, -, hsafe⟩⟩ := hp
    · exact .clean (hmain.trans hcm.symm) hset
    · rw [ht] at hsafe
      cases t with
      | nil => exact hsafe.head
      | cons o t => exact hsafe.head
  · exact hp
  · rename_i todo _
    cases todo with
    | nil => exact .clean hp.nil.1 hp.nil.2
    | cons o t => exact hp.head

theorem rollback_inductive (ps : UInt32) (sync : SynchronousMode) :
    (rollback ps sync).Inductive (RollbackInv ps) where
  init s hs := by
    obtain ⟨hph, hm, hc, hset⟩ := hs
    refine ⟨hc, ?_⟩
    rw [PhaseInv, hph]
    exact ⟨hm, hset⟩
  step s a s' hi hs := by
    have hp := hi.phase
    cases hs with
    | flush dirty nonce hidle hd hnew herr hafter => exact hi.flush hidle hd hnew herr hafter
    | flushOp after op todo hph => exact hi.flushOp hph
    | flushed after hph =>
      rw [PhaseInv, hph] at hp
      obtain ⟨-, ⟨-, hcm, hmain, hset⟩ | ⟨t, ht, -⟩⟩ := hp
      · exact ⟨hi.count, hmain.trans hcm.symm, hset⟩
      · exact absurd ht.symm (by simp)
    | crash => exact hi.crash
    | reopen ops hph hopen =>
      rw [PhaseInv, hph] at hp
      obtain ⟨ops', hopen', hsafe⟩ := safe_open hi.count hp
      rw [hopen] at hopen'
      cases hopen'
      exact ⟨hi.count, hsafe⟩
    | recoverOp op todo hph =>
      rw [PhaseInv, hph] at hp
      exact ⟨hi.count, hp.step⟩
    | opened hph =>
      rw [PhaseInv, hph] at hp
      exact ⟨hi.count, hp.nil⟩

/-- **Crash safety**: over any sequence of flushes, with a crash before any
file operation of a flush or of a recovery, whenever a flush or an open has
completed the main file is the committed one: the file before the
interrupted transaction if its journal was not deleted, the file after it
otherwise. An open after a crash never fails. And over the file of older
journals of the same layout, of which no nonce is the new one, `recover`
applies exactly the records the new journal wrote. -/
theorem rollback_crash_safe (ps : UInt32) (sync : SynchronousMode) :
    (∀ s, (rollback ps sync).Reachable s →
      (s.phase = .idle → s.files.main = s.committed) ∧
        (s.phase = .crashed → ∃ ops, openOps s.files = .ok ops)) ∧
    ∀ (h : JournalHeader) (region old : Bytes) (R : List (UInt32 × Bytes)) (nonces : List UInt32),
      headerRegion h = .ok region → OlderRecords h.sectorSize h.pageSize nonces old →
      h.nonce ∉ nonces → (∀ w ∈ R, w.2.length = h.pageSize.toNat) → R.length ≤ h.nRec.toNat →
      replay h (writeRecords h.nonce h.sectorSize h.pageSize (writeAt old region 0) 0 R) = R := by
  refine ⟨fun s hs => ?_, fun h region old R nonces hreg hold hnew hR hn =>
    replay_writeRecords hreg hold hnew hR hn⟩
  have hi := (rollback_inductive ps sync).reachable s hs
  have hp := hi.phase
  constructor
  · intro hidle
    rw [PhaseInv, hidle] at hp
    exact hp.1
  · intro hcrash
    rw [PhaseInv, hcrash] at hp
    obtain ⟨ops, hops, -⟩ := safe_open hi.count hp
    exact ⟨ops, hops⟩

/-! ## A run

One page, rewritten; the process crashes after the page is written, and
again while the next open recovers. -/

/-- A page with page count 1 in its header and `b` as its last byte. -/
def onePage (b : UInt8) : Bytes := List.replicate 31 0 ++ [1] ++ List.replicate 479 0 ++ [b]

def onePageDirty : DirtyPages := (∅ : DirtyPages).insert 1 (onePage 9)

/-- The operations of the flush. -/
def onePageOps : List FileOp := (flushLocked 512 .full 5 (onePage 7) onePageDirty).ops

/-- The files after the page is written. -/
def tornFiles : Files := runOps (onePageOps.take 5) ⟨onePage 7, none⟩

/-- The operations of each recovery. -/
def onePageUndo : List FileOp :=
  [.writeMain (onePage 7) 0, .truncateMain 512, .syncMain, .deleteJournal]

theorem run_flushOps (t : List FileOp) {rest : List FileOp} (hdel : FileOp.deleteJournal ∉ t)
    (hph : s.phase = .flushing after (t ++ rest)) : (rollback ps sync).Run s (List.replicate t.length .op)
      { s with files := runOps t s.files, phase := .flushing after rest } := by
  induction t generalizing s with
  | nil =>
    have : s = { s with phase := .flushing after rest } := by
      cases s; simp only [nil_append] at hph; simp [hph]
    simp only [length_nil, replicate_zero, runOps_nil]
    rw [← this]
    exact .nil s
  | cons o t ih =>
    have hne : o ≠ .deleteJournal := fun h => hdel (h ▸ mem_cons_self)
    have hstep := @RollbackStep.flushOp ps sync s after o (t ++ rest) hph
    simp only [if_neg hne] at hstep
    exact .cons hstep (ih (fun h => hdel (mem_cons_of_mem _ h)) rfl)

theorem run_recoverOps (t : List FileOp) {rest : List FileOp} (hph : s.phase = .recovering (t ++ rest)) :
    (rollback ps sync).Run s (List.replicate t.length .op)
      { s with files := runOps t s.files, phase := .recovering rest } := by
  induction t generalizing s with
  | nil =>
    have : s = { s with phase := .recovering rest } := by
      cases s; simp only [nil_append] at hph; simp [hph]
    simp only [length_nil, replicate_zero, runOps_nil]
    rw [← this]
    exact .nil s
  | cons o t ih => exact .cons (.recoverOp s o (t ++ rest) hph) (ih rfl)

theorem reachable_torn {s : RollbackDb} (t rest : List FileOp)
    (hr : (rollback ps sync).Reachable s) (hidle : s.phase = .idle) (hd : dirty.toList ≠ [])
    (hnew : nonce ∉ s.nonces) (herr : (flushLocked ps sync nonce s.files.main dirty).error = none)
    (hafter : CountOk ps (runOps (flushLocked ps sync nonce s.files.main dirty).ops s.files).main)
    (hops : (flushLocked ps sync nonce s.files.main dirty).ops = t ++ rest)
    (hdel : FileOp.deleteJournal ∉ t) :
    (rollback ps sync).Reachable ⟨runOps t s.files, s.committed, .crashed, nonce :: s.nonces⟩ := by
  obtain ⟨s₀, as, hinit, hrun⟩ := hr
  have hflush := @RollbackStep.flush ps sync s dirty nonce hidle hd hnew herr hafter
  rw [hops] at hflush
  exact ⟨s₀, _, hinit, hrun.append (.cons hflush ((run_flushOps t hdel rfl).append
    (.cons (.crash _) (.nil _))))⟩

/-- An open of crashed files that crashes itself, and one that completes. -/
theorem reachable_reopened {f : Files} (t rest : List FileOp) {committed : Bytes}
    (hr : (rollback ps sync).Reachable ⟨f, committed, .crashed, nonces⟩)
    (hopen : openOps f = .ok (t ++ rest)) :
    (rollback ps sync).Reachable ⟨runOps t f, committed, .crashed, nonces⟩ ∧
      (rollback ps sync).Reachable ⟨runOps (t ++ rest) f, committed, .idle, nonces⟩ := by
  obtain ⟨s₀, as, hinit, hrun⟩ := hr
  have hstart := hrun.append (.cons (.reopen _ _ rfl hopen) (.nil _))
  constructor
  · exact ⟨s₀, _, hinit, hstart.append ((run_recoverOps t rfl).append (.cons (.crash _) (.nil _)))⟩
  · exact ⟨s₀, _, hinit, hstart.append ((run_recoverOps (t ++ rest)
      (congrArg Phase.recovering (append_nil _).symm)).append (.cons (.opened _ rfl) (.nil _)))⟩

theorem onePage_torn_reachable :
    (rollback 512 .full).Reachable ⟨tornFiles, onePage 7, .crashed, [5]⟩ := by
  refine @reachable_torn 512 .full 5 onePageDirty ⟨⟨onePage 7, none⟩, onePage 7, .idle, []⟩
    (onePageOps.take 5) (onePageOps.drop 5)
    ⟨_, [], ⟨rfl, rfl, ⟨1, ?_, ?_⟩, settled_deleted _⟩, .nil _⟩ rfl ?_ (not_mem_nil) ?_
    ⟨1, ?_, ?_⟩ (take_append_drop 5 onePageOps).symm ?_
  all_goals decide +kernel

/-- The next two opens, of which the first crashes after its first write. -/
theorem onePage_recovered_reachable :
    (rollback 512 .full).Reachable
      ⟨runOps onePageUndo (runOps (onePageUndo.take 1) tornFiles), onePage 7, .idle, [5]⟩ := by
  have h1 := (reachable_reopened (onePageUndo.take 1) (onePageUndo.drop 1) onePage_torn_reachable
    (by decide +kernel)).1
  exact (reachable_reopened onePageUndo [] h1 (by decide +kernel)).2

theorem onePage_recovered :
    (runOps onePageUndo (runOps (onePageUndo.take 1) tornFiles)).main = onePage 7 :=
  ((rollback_crash_safe 512 .full).1 _ onePage_recovered_reachable).1 rfl

end DbStorage.Pager
