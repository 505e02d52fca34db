import DbStorage.Pager.Cluster

/-!
# Resume hints over any interleaving (`WalWriter::open_existing`)

A connection keeps the header, offset and checksum its last WAL commit ended
with, and the next `open_existing` trusts them when the file has the size
and the header of the hint. Other connections append in between, and the
`-wal` file may be deleted and created again with new salts.

`walRuns` has any number of connections, each with the page size it was
opened with. A flush holds the WAL's write lock from `open_existing` to its
last write, so calls are single steps. `salts` lists the salts of all
generations of the file so far: the guard of `next` says that a new
generation draws salts of its own.

Results: `accepted_hint_is_rescan`: in every run whose commits are made at
`synchronous = Full` with page-sized pages (`FullPages`), a hint that
`open_existing` accepts is what a rescan of the file gives.
`short_page_misleads_hint` shows that `append_frame` does not check the
size: behind a shorter page the hint points past the end of the chain.
-/
namespace DbStorage.Pager
open Bytes Vfs Wal Std

set_option linter.dupNamespace false

/-! ## The system -/

/-- The salts of a `-wal` file's header. -/
def headerSalts (wal : Bytes) : UInt32 × UInt32 := (ofBe32 (slice wal 16 4), ofBe32 (slice wal 20 4))

/-- The files, the open connections and the salts of every generation of the
`-wal` file so far. -/
structure WalWorld where
  disk : Disk
  conns : Nat → Option Pager
  salts : List (UInt32 × UInt32)

/-- `vanish`: another program deletes `-wal` and `-shm`. -/
inductive WalAct where
  | join (i : Nat) (pageSize : UInt32)
  | close (i : Nat)
  | call (i : Nat) (op : PagerOp)
  | vanish

def PagerOp.isSwitch : PagerOp → Bool
  | .setJournalMode _ _ => true
  | _ => false

/-- The salts of the generation a call has begun: the file it found missing
is there again. -/
def newSalts (before after : Option Bytes) : List (UInt32 × UInt32) :=
  if before = none then (after.map headerSalts).toList else []

def WalWorld.next (s : WalWorld) : WalAct → Option WalWorld
  | .join i pageSize =>
    if (s.conns i).isSome then none
    else
      match Pager.open s.disk pageSize with
      | .error _ => none
      | .ok c => some { s with disk := c.disk, conns := Function.update s.conns i (some c.pager) }
  | .close i => some { s with conns := Function.update s.conns i none }
  | .call i op =>
    match s.conns i with
    | none => none
    | some pager =>
      let r := (⟨s.disk, pager⟩ : Conn).run op
      let fresh := newSalts s.disk.wal r.2.disk.wal
      if op.isSwitch ∨ fresh.any (s.salts.contains ·) then none
      else some ⟨r.2.disk, Function.update s.conns i (some r.2.pager), fresh ++ s.salts⟩
  | .vanish => some { s with disk := { s.disk with wal := none, shm := none } }

/-- Any files, and no connection yet. -/
def walRuns : LTS WalWorld WalAct where
  init s := (∀ i, s.conns i = none) ∧ s.salts = (s.disk.wal.map headerSalts).toList
  step s a s' := s.next a = some s'

/-- A flush of this connection commits to the WAL. -/
def Pager.commitsWal (pager : Pager) : Bool := pager.journalMode = .wal && !pager.dirty.isEmpty

/-- A commit to the WAL is made at `synchronous = Full`. -/
def AtFull (s : WalWorld) : WalAct → Bool
  | .call i (.flush _ _) => (s.conns i).all fun pager => !pager.commitsWal || pager.synchronous = .full
  | _ => true

/-- A commit to the WAL writes pages of the connection's page size. -/
def FullPages (s : WalWorld) : WalAct → Bool
  | .call i (.flush _ _) => (s.conns i).all fun pager =>
      !pager.commitsWal || pager.dirty.toList.all fun w => w.2.length = pager.pageSize.toNat
  | _ => true

/-! ## What a call does to the WAL -/

/-- Nothing that hints depend on has changed. -/
structure SameWal (s t : Conn) : Prop where
  wal : t.disk.wal = s.disk.wal
  resume : t.pager.walResume = s.pager.walResume
  size : t.pager.pageSize = s.pager.pageSize

/-- The call has appended `txn` to the chain of `wal`: the file it found, or
a new one. -/
structure Appended (s t : Conn) (wal : Bytes) (hd : WalHeader) (txn : List Frame) : Prop where
  source : (s.disk.wal = some wal ∧ WalHeader.parse wal = .ok hd) ∨
    ∃ salts, s.disk.wal = none ∧ hd = freshHeader s.pager.pageSize salts ∧ wal = walOf hd []
  size : hd.pageSize = s.pager.pageSize
  written : t.disk.wal = some (commitBytes hd wal txn)
  resume : t.pager.walResume = some (commitWriter hd wal txn).resumeHint
  pageSize : t.pager.pageSize = s.pager.pageSize

variable {s t u : Conn}

theorem SameWal.refl (s : Conn) : SameWal s s := ⟨rfl, rfl, rfl⟩

theorem SameWal.trans (h : SameWal s t) (h' : SameWal t u) : SameWal s u :=
  ⟨h'.wal.trans h.wal, h'.resume.trans h.resume, h'.size.trans h.size⟩

theorem sameWal_readPage (s : Conn) (p : UInt32) : SameWal s (s.readPage p).2 := by
  unfold Conn.readPage
  split
  · exact .refl s
  · split
    · exact .refl s
    · unfold Conn.readCached
      split
      · exact ⟨rfl, rfl, rfl⟩
      · simp only
        split <;> exact ⟨rfl, rfl, rfl⟩

theorem sameWal_getPageMut (s : Conn) (p : UInt32) : SameWal s (s.getPageMut p).2 := by
  unfold Conn.getPageMut
  simp only
  split
  · exact ⟨rfl, rfl, rfl⟩
  · split <;> exact ⟨rfl, rfl, rfl⟩

theorem connOps_sameWal (n : UInt32) : (connOps n).Keeps (SameWal s) where
  readPage p t h := h.trans (sameWal_readPage t p)
  getPageMut p t h := h.trans (sameWal_getPageMut t p)
  putPage _ _ _ h := h.trans ⟨rfl, rfl, rfl⟩
  insertPage _ _ _ h := h.trans ⟨rfl, rfl, rfl⟩

/-- The writer of a commit stands at the end of the chain. -/
theorem openWriter_cases (salts : UInt32 × UInt32)
    (hhint : ∀ x wal h, s.pager.walResume = some x → s.disk.wal = some wal →
      WalHeader.parse wal = .ok h → HintOk h wal x ∧ x.header.pageSize = s.pager.pageSize) :
    (∃ e, s.openWriter salts = (.error e, s)) ∨
      ∃ wal hd d r, s.openWriter salts = (.ok (writerAt hd wal), ⟨d, { s.pager with walResume := r }⟩) ∧
        d.wal = some wal ∧ hd.pageSize = s.pager.pageSize ∧
        ((s.disk.wal = some wal ∧ WalHeader.parse wal = .ok hd) ∨
          s.disk.wal = none ∧ hd = freshHeader s.pager.pageSize salts ∧ wal = walOf hd []) := by
  unfold Conn.openWriter
  cases hw : s.disk.wal with
  | none =>
    refine .inr ⟨walOf (freshHeader s.pager.pageSize salts) [], freshHeader s.pager.pageSize salts,
      { s.disk with wal := some (walOf (freshHeader s.pager.pageSize salts) []), shm := some 0 }, none,
      ?_, rfl, rfl, .inr ⟨rfl, rfl, rfl⟩⟩
    simp only [WalWriter.openExisting, createWal_none hw]
  | some wal =>
    cases hp : WalHeader.parse wal with
    | error e =>
      -- without a header that parses no hint is accepted
      refine .inl ?_
      have hnot : ∀ hint, WalWriter.openExisting (some wal) s.pager.pageSize hint =
          WalWriter.openScan wal s.pager.pageSize := by
        intro hint
        cases hint with
        | none => rfl
        | some x =>
          simp only [WalWriter.openExisting]
          rw [if_neg]
          rintro ⟨-, hr⟩
          rw [rereadHeader_parse hr] at hp
          cases hp
      have hscan : WalWriter.openScan wal s.pager.pageSize = .error e := by
        simp only [WalWriter.openScan, hp, bind, Except.bind]
      rw [hnot, hscan]
      cases e with
      | notFound => exact absurd hp (parse_ne_notFound wal)
      | _ => exact ⟨_, rfl⟩
    | ok hd =>
      by_cases hsize : hd.pageSize = s.pager.pageSize
      · refine .inr ⟨wal, hd, s.disk, s.pager.walResume, ?_, hw, hsize, .inl ⟨rfl, hp⟩⟩
        rw [← hsize, openExisting_ok _ hp fun x hx => (hhint x wal hd hx hw hp).1]
        rfl
      · refine .inl ⟨.wal (.invalidPageSize hd.pageSize), ?_⟩
        have hscan : WalWriter.openScan wal s.pager.pageSize = .error (.invalidPageSize hd.pageSize) := by
          simp only [WalWriter.openScan, hp, bind, Except.bind, ne_eq, hsize, not_false_iff, if_true]
        have hopen : WalWriter.openExisting (some wal) s.pager.pageSize s.pager.walResume =
            WalWriter.openScan wal s.pager.pageSize := by
          cases hx : s.pager.walResume with
          | none => rfl
          | some x =>
            simp only [WalWriter.openExisting, rereadHeader_eq hp, Option.some.injEq]
            rw [if_neg]
            rintro ⟨-, rfl⟩
            exact hsize (hhint x wal _ hx hw hp).2
        rw [hopen, hscan]

/-- A WAL flush at `Full` leaves the WAL alone or appends the dirty pages. -/
theorem flushWalLocked_appends (salts : UInt32 × UInt32) (hfull : s.pager.synchronous = .full)
    (hne : s.pager.dirty.toList ≠ [])
    (hhint : ∀ x wal h, s.pager.walResume = some x → s.disk.wal = some wal →
      WalHeader.parse wal = .ok h → HintOk h wal x ∧ x.header.pageSize = s.pager.pageSize) :
    SameWal s (s.flushWalLocked salts).2 ∧ (s.flushWalLocked salts).1.isOk = false ∨
      ∃ wal hd count, Appended s (s.flushWalLocked salts).2 wal hd (commitFrames count s.pager.dirty.toList) := by
  have h1 := sameWal_readPage s 1
  have hdirty : (s.readPage 1).2.pager.dirty = s.pager.dirty ∧
      (s.readPage 1).2.pager.synchronous = s.pager.synchronous := by
    unfold Conn.readPage Conn.readCached
    grind [Conn.setCache]
  unfold Conn.flushWalLocked
  rcases hr : s.readPage 1 with ⟨e | page1, s₁⟩ <;> rw [hr] at h1 hdirty <;> simp only at h1 hdirty ⊢
  · exact .inl ⟨h1, rfl⟩
  · cases hcount : readBeU32 page1 pageCountOffset with
    | error e => exact .inl ⟨h1, rfl⟩
    | ok count =>
      simp only
      have hhint₁ : ∀ x wal h, s₁.pager.walResume = some x → s₁.disk.wal = some wal →
          WalHeader.parse wal = .ok h → HintOk h wal x ∧ x.header.pageSize = s₁.pager.pageSize := by
        rw [h1.resume, h1.wal, h1.size]
        exact hhint
      rcases openWriter_cases salts hhint₁ with ⟨e, he⟩ | ⟨wal, hd, d, r, ho, hdw, hsize, hsource⟩
      · rw [he]
        exact .inl ⟨h1, rfl⟩
      · have hne' : commitFrames count s₁.pager.dirty.toList ≠ [] := by
          rw [hdirty.1]
          obtain ⟨last, hlast, -⟩ := commitFrames_getLast count hne
          intro hnil; rw [hnil] at hlast; cases hlast
        refine .inr ⟨wal, hd, count, ?_⟩
        rw [ho]
        simp only
        rw [@commitWal_full ⟨d, { s₁.pager with walResume := r }⟩ wal hd count hdw
          (hdirty.2.trans hfull) hne', hdirty.1]
        refine ⟨?_, hsize.trans h1.size, rfl, rfl, h1.size⟩
        rw [h1.wal, h1.size] at hsource
        rcases hsource with hsome | hnone
        · exact .inl hsome
        · exact .inr ⟨salts, hnone⟩

theorem run_appends {op : PagerOp} (hop : op.isSwitch = false)
    (hfull : op.isFlush = true → s.pager.commitsWal = true → s.pager.synchronous = .full)
    (hhint : ∀ x wal h, s.pager.walResume = some x → s.disk.wal = some wal →
      WalHeader.parse wal = .ok h → HintOk h wal x ∧ x.header.pageSize = s.pager.pageSize) :
    SameWal s (s.run op).2 ∧
        (op.isFlush = true → s.pager.commitsWal = true → (s.run op).1 = false) ∨ op.isFlush = true ∧ s.pager.commitsWal = true ∧
      ∃ wal hd count, Appended s (s.run op).2 wal hd (commitFrames count s.pager.dirty.toList) := by
  have hkeep : (connOps s.pager.pageSize).Keeps (SameWal s) := connOps_sameWal _
  cases op with
  | readPage p => exact .inl ⟨sameWal_readPage s p, nofun⟩
  | editPage p bytes => exact .inl ⟨hkeep.edit p _ s (.refl s), nofun⟩
  | allocatePage => exact .inl ⟨allocatePage_keeps hkeep s (.refl s), nofun⟩
  | deallocatePage p => exact .inl ⟨deallocatePage_keeps hkeep p s (.refl s), nofun⟩
  | rollback => exact .inl ⟨⟨rfl, rfl, rfl⟩, nofun⟩
  | beginImmediate => exact .inl ⟨⟨rfl, rfl, rfl⟩, nofun⟩
  | beginExclusive => exact .inl ⟨⟨rfl, rfl, rfl⟩, nofun⟩
  | setSynchronous mode => exact .inl ⟨⟨rfl, rfl, rfl⟩, nofun⟩
  | setJournalMode mode salts => cases hop
  | flush nonce salts =>
    simp only [Conn.run, Conn.flush]
    by_cases he : s.pager.dirty.isEmpty = true
    · rw [if_pos he]
      exact .inl ⟨⟨rfl, rfl, rfl⟩, fun _ hcommits => by simp [Pager.commitsWal, he] at hcommits⟩
    · rw [if_neg he]
      cases hm : s.pager.journalMode with
      | legacy =>
        refine .inl ⟨?_, fun _ hcommits => by simp [Pager.commitsWal, hm] at hcommits⟩
        simp only [Conn.flushLegacy]
        split <;> exact ⟨rfl, rfl, rfl⟩
      | wal =>
        have hne : s.pager.dirty.toList ≠ [] := fun hnil =>
          he (by rw [← ExtTreeMap.isEmpty_toList, hnil]; rfl)
        have hcommits : s.pager.commitsWal = true := by simp [Pager.commitsWal, hm, he]
        rcases flushWalLocked_appends salts (hfull rfl hcommits) hne hhint with ⟨hsame, herr⟩ | ⟨wal, hd, count, ha⟩
        · exact .inl ⟨hsame.trans ⟨rfl, rfl, rfl⟩, fun _ _ => herr⟩
        · exact .inr ⟨rfl, hcommits, wal, hd, count, ha.source, ha.size, ha.written, ha.resume, ha.pageSize⟩

/-! ## The invariant -/

/-- A hint that some connection holds: it is the end of a commit to a
generation of the file, and if that generation is still the one in place,
the chain goes on from there. -/
structure HintInv (s : WalWorld) (pager : Pager) (x : WalResumeHint) : Prop where
  ends : x.offset = x.expectedSize
  size : x.header.pageSize = pager.pageSize
  generation : (x.header.salt1, x.header.salt2) ∈ s.salts
  chained : ∀ wal h, s.disk.wal = some wal → WalHeader.parse wal = .ok h → HintOk h wal x

structure WalWorldInv (s : WalWorld) : Prop where
  generation : ∀ wal, s.disk.wal = some wal → headerSalts wal ∈ s.salts
  hint : ∀ i pager x, s.conns i = some pager → pager.walResume = some x → HintInv s pager x

theorem walOf_nil_length (hd : WalHeader) : headerLen ≤ (walOf hd []).length := by
  rw [walOf, List.length_append, Wal.serialize_length]
  exact Nat.le_add_right _ _

variable {wal : Bytes} {hd : WalHeader} {txn : List Frame}

theorem Appended.length_le (h : Appended s t wal hd txn) : headerLen ≤ wal.length := by
  rcases h.source with ⟨-, hp⟩ | ⟨salts, -, -, rfl⟩
  · exact parse_length hp
  · exact walOf_nil_length hd

theorem headerSalts_commitBytes (txn : List Frame) (hl : headerLen ≤ wal.length) :
    headerSalts (commitBytes hd wal txn) = headerSalts wal := by
  have hoff : headerLen ≤ (lastValidFrameState hd wal).1 := by
    rw [lastValidFrameState_eq, endFrom_offset]; exact Nat.le_add_right _ _
  rw [headerLen] at hl hoff
  unfold headerSalts commitBytes
  rw [slice_writeAt_before _ _ _ _ _ (by omega) (by omega), slice_writeAt_before _ _ _ _ _ (by omega) (by omega)]

theorem headerSalts_walOf (hd : WalHeader) : headerSalts (walOf hd []) = (hd.salt1, hd.salt2) := by
  have e : ∀ b, slice (walOf hd []) b 4 = slice hd.serialize b 4 := by simp [walOf, encodeFrames]
  rw [headerSalts, e, e]
  have e1 : slice hd.serialize 16 4 = be32 hd.salt1 := by simp [WalHeader.serialize, slice, be32]
  have e2 : slice hd.serialize 20 4 = be32 hd.salt2 := by simp [WalHeader.serialize, slice, be32]
  rw [e1, e2, ofBe32_be32, ofBe32_be32]

/-- The file a commit appends to has the salts of the header it uses. -/
theorem Appended.salts (h : Appended s t wal hd txn) : headerSalts wal = (hd.salt1, hd.salt2) := by
  rcases h.source with ⟨-, hp⟩ | ⟨salts, -, -, rfl⟩
  · rw [(parse_salts hp).1, (parse_salts hp).2]
    rfl
  · exact headerSalts_walOf hd

theorem next_call {w w' : WalWorld} {i : Nat} {op : PagerOp} (h : w.next (.call i op) = some w') :
    ∃ pager, w.conns i = some pager ∧ op.isSwitch = false ∧
      (∀ g ∈ newSalts w.disk.wal ((⟨w.disk, pager⟩ : Conn).run op).2.disk.wal, g ∉ w.salts) ∧
      w' = ⟨((⟨w.disk, pager⟩ : Conn).run op).2.disk,
        Function.update w.conns i (some ((⟨w.disk, pager⟩ : Conn).run op).2.pager),
        newSalts w.disk.wal ((⟨w.disk, pager⟩ : Conn).run op).2.disk.wal ++ w.salts⟩ := by
  simp only [WalWorld.next] at h
  cases hc : w.conns i with
  | none => rw [hc] at h; cases h
  | some pager =>
    rw [hc] at h
    simp only at h
    split at h
    · cases h
    · rename_i hno
      cases h
      simp only [not_or, Bool.not_eq_true, List.any_eq_false, List.contains_eq_mem, decide_eq_true_eq] at hno
      exact ⟨pager, rfl, hno.1, hno.2, rfl⟩

theorem newSalts_self (wal : Option Bytes) : newSalts wal wal = [] := by
  unfold newSalts
  split
  · rename_i h; rw [h]; rfl
  · rfl

section
variable {w : WalWorld} {i : Nat} {pager : Pager}

theorem WalWorldInv.same (hi : WalWorldInv w) (hc : w.conns i = some pager) (h : SameWal ⟨w.disk, pager⟩ t) :
    WalWorldInv ⟨t.disk, Function.update w.conns i (some t.pager), newSalts w.disk.wal t.disk.wal ++ w.salts⟩ := by
  have hw : t.disk.wal = w.disk.wal := h.wal
  rw [hw, newSalts_self, List.nil_append]
  have hkeep : ∀ {p q : Pager} {x : WalResumeHint}, HintInv w p x → q.pageSize = p.pageSize →
      HintInv ⟨t.disk, Function.update w.conns i (some t.pager), w.salts⟩ q x := by
    intro p q x hx hq
    refine ⟨hx.ends, hx.size.trans hq.symm, hx.generation, fun wal hd hwal => ?_⟩
    exact hx.chained wal hd (hw ▸ hwal)
  refine ⟨fun wal hwal => hi.generation wal (hw ▸ hwal), fun j q x hj hx => ?_⟩
  rcases update_eq_some hj with ⟨rfl, rfl⟩ | ⟨-, hj⟩
  · exact hkeep (hi.hint j pager x hc (h.resume ▸ hx)) h.size
  · exact hkeep (hi.hint j q x hj hx) rfl

theorem WalWorldInv.appended (hi : WalWorldInv w) (h : Appended ⟨w.disk, pager⟩ t wal hd txn)
    (hc : ∀ f ∈ txn, f.content.length = hd.pageSize.toNat) (hnew : ∀ g ∈ newSalts w.disk.wal t.disk.wal, g ∉ w.salts) :
    WalWorldInv ⟨t.disk, Function.update w.conns i (some t.pager), newSalts w.disk.wal t.disk.wal ++ w.salts⟩ := by
  have hsalts : headerSalts (commitBytes hd wal txn) = (hd.salt1, hd.salt2) :=
    (headerSalts_commitBytes txn h.length_le).trans h.salts
  have hgen : (hd.salt1, hd.salt2) ∈ newSalts w.disk.wal t.disk.wal ++ w.salts := by
    rcases h.source with ⟨hsome, -⟩ | ⟨salts, hnone, -, -⟩
    · have := hi.generation wal hsome
      rw [h.salts] at this
      exact List.mem_append_right _ this
    · refine List.mem_append_left _ ?_
      simp only at hnone
      simp [newSalts, hnone, h.written, hsalts]
  refine ⟨fun wal' hwal' => ?_, fun j q x hj hx => ?_⟩
  · rw [h.written] at hwal'
    cases hwal'
    rwa [hsalts]
  · rcases update_eq_some hj with ⟨rfl, rfl⟩ | ⟨-, hj⟩
    · -- the committing connection's own hint
      rw [h.resume] at hx
      cases hx
      refine ⟨rfl, h.size.trans h.pageSize.symm, hgen, fun wal' hd' hwal' _ => ?_⟩
      rw [h.written] at hwal'
      cases hwal'
      refine ⟨rfl, fun he => ?_⟩
      have he : hd = hd' := he
      subst he
      exact (hintOk_commitWriter h.length_le hc).2 rfl
    · have hx := hi.hint j q x hj hx
      refine ⟨hx.ends, hx.size, List.mem_append_right _ hx.generation, fun wal' hd' hwal' hp' => ?_⟩
      rw [h.written] at hwal'
      cases hwal'
      rcases h.source with ⟨hsome, hp⟩ | ⟨salts, hnone, -, -⟩
      · rw [parse_commitBytes txn hp] at hp'
        cases hp'
        exact (hx.chained wal hd hsome hp).commit txn hp
      · -- a new generation: its salts are not those of any hint
        refine ⟨hx.ends, fun he => ?_⟩
        have hfresh : headerSalts (commitBytes hd wal txn) ∉ w.salts := by
          refine hnew _ ?_
          simp only at hnone
          simp [newSalts, hnone, h.written]
        refine absurd hx.generation ?_
        rw [he, (parse_salts hp').1, (parse_salts hp').2]
        exact hfresh

end

theorem open_wal {disk : Disk} {ps : UInt32} {c : Conn} (h : Pager.open disk ps = .ok c) :
    c.disk.wal = disk.wal ∧ c.pager.walResume = none := by
  unfold Pager.open at h
  split at h
  · cases h
  · simp only at h
    split at h
    · cases h
    · split at h
      · cases h
      · cases h; exact ⟨rfl, rfl⟩

theorem walRuns_inductive :
    (walRuns.restrict fun s a => (AtFull s a && FullPages s a) = true).Inductive WalWorldInv where
  init s hs := by
    obtain ⟨hnone, hsalts⟩ := hs
    refine ⟨fun wal hwal => ?_, fun i pager x hi => ?_⟩
    · rw [hsalts, hwal]
      exact List.mem_singleton.2 rfl
    · rw [hnone i] at hi
      cases hi
  step s a s' hi hs := by
    obtain ⟨hstep, hcond⟩ := hs
    rw [Bool.and_eq_true] at hcond
    cases a with
    | join i ps =>
      simp only [walRuns, WalWorld.next] at hstep
      split at hstep
      · cases hstep
      · split at hstep
        · cases hstep
        · rename_i c hopen
          cases hstep
          obtain ⟨hwal, hresume⟩ := open_wal hopen
          refine ⟨fun wal hw => hi.generation wal (hwal ▸ hw), fun j q x hj hx => ?_⟩
          rcases update_eq_some hj with ⟨rfl, rfl⟩ | ⟨-, hj⟩
          · rw [hresume] at hx
            cases hx
          · have hx := hi.hint j q x hj hx
            exact ⟨hx.ends, hx.size, hx.generation, fun wal hd hw => hx.chained wal hd (hwal ▸ hw)⟩
    | close i =>
      cases hstep
      refine ⟨hi.generation, fun j q x hj hx => ?_⟩
      have hj : s.conns j = some q := by
        simp only at hj
        rcases eq_or_ne j i with rfl | hne
        · rw [Function.update_self] at hj; cases hj
        · rwa [Function.update_of_ne hne] at hj
      have hx := hi.hint j q x hj hx
      exact ⟨hx.ends, hx.size, hx.generation, hx.chained⟩
    | vanish =>
      cases hstep
      refine ⟨fun wal hw => ?_, fun j q x hj hx => ?_⟩
      · cases hw
      · have hx := hi.hint j q x hj hx
        refine ⟨hx.ends, hx.size, hx.generation, fun wal hd hw => ?_⟩
        cases hw
    | call i op =>
      obtain ⟨pager, hc, hswitch, hnew, rfl⟩ := next_call hstep
      have hhint : ∀ x wal h, pager.walResume = some x → s.disk.wal = some wal →
          WalHeader.parse wal = .ok h → HintOk h wal x ∧ x.header.pageSize = pager.pageSize :=
        fun x wal h hx hw hp => ⟨(hi.hint i pager x hc hx).chained wal h hw hp, (hi.hint i pager x hc hx).size⟩
      have hfull : op.isFlush = true → pager.commitsWal = true → pager.synchronous = .full := by
        intro hf hcommits
        cases op with
        | flush nonce salts => simpa [AtFull, hc, hcommits] using hcond.1
        | _ => cases hf
      rcases @run_appends ⟨s.disk, pager⟩ op hswitch hfull hhint with ⟨hsame, -⟩ | ⟨hf, hm, wal, hd, count, ha⟩
      · exact hi.same hc hsame
      · have hpages : ∀ v ∈ pager.dirty.toList, v.2.length = pager.pageSize.toNat := by
          cases op with
          | flush nonce salts =>
            have hm : pager.commitsWal = true := hm
            simpa [FullPages, hc, hm] using hcond.2
          | _ => cases hf
        refine hi.appended ha (fun f hmem => ?_) hnew
        rw [ha.size]
        exact hpages _ (mem_commitFrames hmem)

/-- **An accepted hint is a rescan**: in every run of any number of
connections whose commits are made at `synchronous = Full` with page-sized pages,
whenever the file has the size and the header of a connection's hint, a
rescan gives the hint's header, offset and running checksum. -/
theorem accepted_hint_is_rescan (s : WalWorld)
    (hreach : (walRuns.restrict fun s a => (AtFull s a && FullPages s a) = true).Reachable s)
    (i : Nat) (pager : Pager) (x : WalResumeHint) (wal : Bytes) (hconn : s.conns i = some pager)
    (hx : pager.walResume = some x) (hwal : s.disk.wal = some wal) (hsize : x.expectedSize = wal.length)
    (hheader : rereadHeader wal = some x.header) :
    WalWriter.openScan wal pager.pageSize = .ok ⟨x.header, x.running, x.offset, none, []⟩ := by
  have hx := (walRuns_inductive.reachable s hreach).hint i pager x hconn hx
  have hp := rereadHeader_parse hheader
  have hend : lastValidFrameState x.header wal = (x.offset, x.running) := by
    rw [(hx.chained wal x.header hwal hp).2 rfl]
    exact (framesFrom_past_end _ (by have := hx.ends; have := x.header.frameSize_pos; omega)).2
  rw [← hx.size, openScan_ok hp, hend]

/-! ## Two runs -/

/-- The files of `sharedDisk`, and no connection yet. -/
def sharedWorld : WalWorld := ⟨sharedDisk, fun _ => none, [headerSalts (walOf header512 [])]⟩

theorem sharedWorld_init : walRuns.init sharedWorld := ⟨fun _ => rfl, rfl⟩

/-- The end of a run from there. -/
def sharedRun (guard : WalWorld → WalAct → Bool) (acts : List WalAct) : WalWorld :=
  (LTS.follow WalWorld.next guard acts sharedWorld).getD sharedWorld

theorem sharedRun_reachable {guard : WalWorld → WalAct → Bool} {acts : List WalAct}
    (h : (LTS.follow WalWorld.next guard acts sharedWorld).isSome = true) :
    (walRuns.restrict fun s a => guard s a = true).Reachable (sharedRun guard acts) :=
  LTS.Reachable.follow (fun _ _ _ hs => hs) ⟨sharedWorld, [], sharedWorld_init, .nil _⟩ (LTS.followed_getD h)

/-- One commit of a page 1 that has been cut to 100 bytes. -/
def shortCommit : WalWorld :=
  sharedRun AtFull [.join 0 512, .call 0 (.editPage 1 (editedPage.take 100)), .call 0 (.flush 0 (0, 0))]

/-- The file is accepted, and a rescan of it ends behind its header. -/
theorem short_page_misleads_hint :
    ∃ s, (walRuns.restrict fun s a => AtFull s a = true).Reachable s ∧
      ∃ pager x wal, s.conns 0 = some pager ∧ pager.walResume = some x ∧ s.disk.wal = some wal ∧
        x.expectedSize = wal.length ∧ rereadHeader wal = some x.header ∧
        ∃ w, WalWriter.openScan wal pager.pageSize = .ok w ∧ w.offset = headerLen ∧ x.offset = 156 := by
  refine ⟨shortCommit, sharedRun_reachable (by decide +kernel), ?_⟩
  have hfacts : ((shortCommit.conns 0).bind fun pager => pager.walResume.bind fun x =>
      shortCommit.disk.wal.bind fun wal => match WalWriter.openScan wal pager.pageSize with
        | .ok w => some (decide (x.expectedSize = wal.length), decide (rereadHeader wal = some x.header),
            w.offset, x.offset)
        | .error _ => none) = some (true, true, 32, 156) := by decide +kernel
  obtain ⟨pager, hpager, hfacts⟩ := Option.bind_eq_some_iff.1 hfacts
  obtain ⟨x, hx, hfacts⟩ := Option.bind_eq_some_iff.1 hfacts
  obtain ⟨wal, hwal, hfacts⟩ := Option.bind_eq_some_iff.1 hfacts
  split at hfacts
  · rename_i w hw
    simp only [Option.some.injEq, Prod.mk.injEq, decide_eq_true_eq] at hfacts
    exact ⟨pager, x, wal, hpager, hx, hwal, hfacts.1, hfacts.2.1, w, hw, hfacts.2.2.1, hfacts.2.2.2⟩
  · cases hfacts

/-- Two connections; between their commits the `-wal` file vanishes. -/
def recreated : WalWorld :=
  sharedRun (fun s a => AtFull s a && FullPages s a)
    [.join 0 512, .join 1 512, .call 0 (.editPage 1 editedPage), .call 0 (.flush 0 (0, 0)), .vanish,
      .call 1 (.editPage 1 editedPage), .call 1 (.flush 0 (3, 4))]

/-- The second connection's hint is accepted and is what a rescan gives. -/
theorem recreated_hint_is_rescan :
    ∃ pager x wal, recreated.conns 1 = some pager ∧ pager.walResume = some x ∧ recreated.disk.wal = some wal ∧
      x.expectedSize = wal.length ∧ rereadHeader wal = some x.header ∧
      WalWriter.openScan wal pager.pageSize = .ok ⟨x.header, x.running, x.offset, none, []⟩ := by
  have hfacts : ((recreated.conns 1).bind fun pager => pager.walResume.bind fun x =>
      recreated.disk.wal.bind fun wal => some (decide (x.expectedSize = wal.length),
        decide (rereadHeader wal = some x.header))) = some (true, true) := by decide +kernel
  obtain ⟨pager, hpager, hfacts⟩ := Option.bind_eq_some_iff.1 hfacts
  obtain ⟨x, hx, hfacts⟩ := Option.bind_eq_some_iff.1 hfacts
  obtain ⟨wal, hwal, hfacts⟩ := Option.bind_eq_some_iff.1 hfacts
  simp only [Option.some.injEq, Prod.mk.injEq, decide_eq_true_eq] at hfacts
  exact ⟨pager, x, wal, hpager, hx, hwal, hfacts.1, hfacts.2,
    accepted_hint_is_rescan recreated (sharedRun_reachable (by decide +kernel)) 1 pager x wal hpager hx hwal
      hfacts.1 hfacts.2⟩

end DbStorage.Pager
