import DbStorage.Core.LTS
import DbStorage.Pager.Freelist

/-!
# Commit and recovery in rollback-journal mode

`Pager::flush_locked` and `recover_hot_journal` (`pager/mod.rs`) as
the lists of file operations they perform, each of which happens whole or
not at all. What they read (the header's page count, the pre-images, the
journal) they read before the operations that could change it, so the
operations are computed from the files at the call.

Results: what a flush performs, part by part (`journalRecords_eq`,
`writeDirty_eq`, `flushLocked_journaled`), and the files after it
(`runOps_flushLocked`).
-/
namespace DbStorage.Pager
open Bytes Vfs Std

/-- mirrors header.rs:122-134 -/
inductive SynchronousMode where
  | off
  | normal
  | full
  deriving DecidableEq

/-- Dirty pages by number. -/
abbrev DirtyPages := ExtTreeMap UInt32 Bytes

def readMain (main : Bytes) (pageSize pageNum : UInt32) : Except PagerError Bytes :=
  (readPage main pageSize pageNum).mapError .page

theorem readMain_ok {main : Bytes} {ps p : UInt32} {c : Bytes} :
    readMain main ps p = .ok c ↔ readPage main ps p = .ok c := by
  unfold readMain
  cases readPage main ps p <;> simp [Except.mapError]

/-- The page count in the header on page 1.
mirrors pager/mod.rs:586 -/
def headerPageCount (main : Bytes) (pageSize : UInt32) : Except PagerError UInt32 := do
  let page1 ← readMain main pageSize 1
  (readBeU32 page1 pageCountOffset).mapError .freelist

/-! ## File operations -/

/-- The main file, and the `-journal` file if it exists. -/
structure Files where
  main : Bytes
  journal : Option Bytes
  deriving DecidableEq

inductive FileOp where
  | createJournal
  | writeJournal (data : Bytes) (offset : Nat)
  | syncJournal
  | writeMain (data : Bytes) (offset : Nat)
  | truncateMain (len : Nat)
  | syncMain
  | deleteJournal
  deriving DecidableEq

def FileOp.apply (f : Files) : FileOp → Files
  | .createJournal => { f with journal := some (f.journal.getD []) }
  | .writeJournal data offset => { f with journal := some (writeAt (f.journal.getD []) data offset) }
  | .syncJournal => f
  | .writeMain data offset => { f with main := writeAt f.main data offset }
  | .truncateMain len => { f with main := resize f.main len }
  | .syncMain => f
  | .deleteJournal => { f with journal := none }

def runOps (ops : List FileOp) (f : Files) : Files := ops.foldl FileOp.apply f

/-- The operations a call performs, and the error it stops with. -/
structure Plan where
  ops : List FileOp
  error : Option PagerError

/-- One part of a call after another: an error stops the call. -/
def Plan.andThen (a b : Plan) : Plan :=
  match a.error with
  | some e => ⟨a.ops, some e⟩
  | none => ⟨a.ops ++ b.ops, b.error⟩

/-! ## Committing -/

/-- The records of the pre-images, from record `index` on.
mirrors pager/mod.rs:605-610 -/
def journalRecords (main : Bytes) (pageSize nonce : UInt32) : Nat → List UInt32 → Plan
  | _, [] => ⟨[], none⟩
  | index, p :: ps =>
    match readMain main pageSize p with
    | .error e => ⟨[], some e⟩
    | .ok original =>
      (⟨[.writeJournal (recordBytes nonce p original) (recordOffset pageSize pageSize index)], none⟩ :
        Plan).andThen (journalRecords main pageSize nonce (index + 1) ps)

/-- The dirty pages, ascending.
mirrors pager/mod.rs:620-624 -/
def writeDirty (pageSize : UInt32) : List (UInt32 × Bytes) → Plan
  | [] => ⟨[], none⟩
  | (p, bytes) :: dirty =>
    if p = 0 then ⟨[], some (.page .invalidPageNumber)⟩
    else if bytes.length ≠ pageSize.toNat then
      ⟨[], some (.page (.wrongLength p pageSize.toNat bytes.length))⟩
    else (⟨[.writeMain bytes (pageOffset pageSize p)], none⟩ : Plan).andThen (writeDirty pageSize dirty)

/-- The header and the pre-images of the pages that existed before.
mirrors pager/mod.rs:594-619 -/
def journalPart (pageSize : UInt32) (synchronous : SynchronousMode) (nonce count : UInt32)
    (main : Bytes) (toJournal : List UInt32) : Plan :=
  if toJournal = [] then ⟨[], none⟩
  else
    let header : JournalHeader :=
      ⟨UInt32.ofNat toJournal.length, nonce, count, pageSize, pageSize⟩
    match headerRegion header with
    | .error e => ⟨[.createJournal], some (.journal e)⟩
    | .ok region =>
      ((⟨[.createJournal, .writeJournal region 0], none⟩ : Plan).andThen
        (journalRecords main pageSize nonce 0 toJournal)).andThen
        ⟨if synchronous ≠ .off then [.syncJournal] else [], none⟩

/-- mirrors pager/mod.rs:582-636; the nonce is drawn by `random_nonce`. -/
def flushLocked (pageSize : UInt32) (synchronous : SynchronousMode) (nonce : UInt32) (main : Bytes)
    (dirty : DirtyPages) : Plan :=
  match headerPageCount main pageSize with
  | .error e => ⟨[], some e⟩
  | .ok initialPageCount =>
    let toJournal := dirty.keys.filter (· ≤ initialPageCount)
    ((journalPart pageSize synchronous nonce initialPageCount main toJournal).andThen
      (writeDirty pageSize dirty.toList)).andThen
      ⟨(if synchronous = .full then [.syncMain] else []) ++
        (if toJournal = [] then [] else [.deleteJournal]), none⟩

/-! ## Recovering -/

/-- mirrors pager/mod.rs:412-415 -/
def journalIsHot (journal : Bytes) : Bool := slice journal 0 8 == journalMagic

/-- mirrors pager/mod.rs:1132-1150 and journal.rs:274-318 -/
def recoverHotJournal (journal : Bytes) : Except PagerError (List FileOp) :=
  match JournalHeader.parse journal with
  | .error e => .error (.journal e)
  | .ok h =>
    .ok (((replay h journal).map fun w => .writeMain w.2 (pageOffset h.pageSize w.1)) ++
      [.truncateMain (h.initialPageCount.toNat * h.pageSize.toNat), .syncMain, .deleteJournal])

/-- What `Pager::open` does to the files.
mirrors pager/mod.rs:408-431 -/
def openOps (f : Files) : Except PagerError (List FileOp) :=
  match f.journal with
  | none => .ok []
  | some j => if journalIsHot j then recoverHotJournal j else .ok []

/-! ## Runs of operations -/

@[simp] theorem runOps_nil (f : Files) : runOps [] f = f := rfl

@[simp] theorem runOps_cons (op : FileOp) (ops : List FileOp) (f : Files) :
    runOps (op :: ops) f = runOps ops (op.apply f) := rfl

theorem runOps_append (a b : List FileOp) (f : Files) : runOps (a ++ b) f = runOps b (runOps a f) :=
  List.foldl_append

/-- A property that every operation of a list keeps holds before each of them. -/
theorem runOps_take_of_keeps {P : Files → Prop} {ops : List FileOp}
    (hk : ∀ op ∈ ops, ∀ f, P f → P (op.apply f)) (k : Nat) {f : Files} (hf : P f) :
    P (runOps (ops.take k) f) := by
  induction ops generalizing f k with
  | nil => simpa using hf
  | cons op ops ih =>
    cases k with
    | zero => exact hf
    | succ k =>
      rw [List.take_succ_cons, runOps_cons]
      exact ih (fun o ho => hk o (List.mem_cons_of_mem _ ho)) k (hk op List.mem_cons_self f hf)

/-- What holds before each operation of two parts, run one after the other,
holds before each operation of the whole. -/
theorem forall_take_append {P : Files → Prop} {a b : List FileOp} {f : Files}
    (ha : ∀ k, k < a.length → P (runOps (a.take k) f))
    (hb : ∀ k, k < b.length → P (runOps (b.take k) (runOps a f))) (k : Nat)
    (hk : k < (a ++ b).length) : P (runOps ((a ++ b).take k) f) := by
  rw [List.length_append] at hk
  rcases Nat.lt_or_ge k a.length with hl | hl
  · rw [List.take_append_of_le_length (Nat.le_of_lt hl)]
    exact ha k hl
  · rw [List.take_append, List.take_of_length_le hl, runOps_append]
    exact hb (k - a.length) (by omega)

/-! ## What a flush performs -/

theorem andThen_ops {a b : Plan} (ha : a.error = none) :
    a.andThen b = ⟨a.ops ++ b.ops, b.error⟩ := by
  unfold Plan.andThen
  rw [ha]

/-- The pre-images of the pages to journal. -/
def preImages (main : Bytes) (pageSize : UInt32) (pages : List UInt32) : List (UInt32 × Bytes) :=
  pages.map fun p => (p, slice main (pageOffset pageSize p) pageSize.toNat)

/-- The record writes of `R` from slot `i` on. -/
def recordOps (pageSize nonce : UInt32) : Nat → List (UInt32 × Bytes) → List FileOp
  | _, [] => []
  | i, w :: R =>
    .writeJournal (recordBytes nonce w.1 w.2) (recordOffset pageSize pageSize i) ::
      recordOps pageSize nonce (i + 1) R

theorem journalRecords_eq {main : Bytes} {ps nonce : UInt32} {pages : List UInt32} (i : Nat)
    (hp : ∀ p ∈ pages, ∃ c, readPage main ps p = .ok c) :
    journalRecords main ps nonce i pages =
      ⟨recordOps ps nonce i (preImages main ps pages), none⟩ := by
  induction pages generalizing i with
  | nil => rfl
  | cons p pages ih =>
    obtain ⟨c, hc⟩ := hp p List.mem_cons_self
    have hs : slice main (pageOffset ps p) ps.toNat = c := by
      unfold readPage at hc
      split at hc
      · cases hc
      · simp only [ne_eq, ite_not] at hc
        split at hc
        · exact Except.ok.inj hc
        · cases hc
    have hm : readMain main ps p = .ok c := by rw [readMain, hc]; rfl
    rw [journalRecords, hm]
    simp only
    rw [andThen_ops rfl, ih (i + 1) fun q hq => hp q (List.mem_cons_of_mem _ hq)]
    simp only [preImages, List.map_cons, recordOps, hs, List.singleton_append]

/-- The main-file writes of a list of pages. -/
def mainWrites (pageSize : UInt32) (pages : List (UInt32 × Bytes)) : List FileOp :=
  pages.map fun w => .writeMain w.2 (pageOffset pageSize w.1)

theorem writeDirty_eq {ps : UInt32} {pages : List (UInt32 × Bytes)}
    (hp : ∀ w ∈ pages, w.1 ≠ 0 ∧ w.2.length = ps.toNat) :
    writeDirty ps pages = ⟨mainWrites ps pages, none⟩ := by
  induction pages with
  | nil => rfl
  | cons w pages ih =>
    obtain ⟨h0, hl⟩ := hp w List.mem_cons_self
    rw [writeDirty, if_neg h0, if_neg (not_not.2 hl), andThen_ops rfl,
      ih fun v hv => hp v (List.mem_cons_of_mem _ hv)]
    rfl

theorem runOps_mainWrites (ps : UInt32) (pages : List (UInt32 × Bytes)) (f : Files) :
    runOps (mainWrites ps pages) f = { f with main := writePages f.main ps pages } := by
  induction pages generalizing f with
  | nil => rfl
  | cons w pages ih =>
    have e : mainWrites ps (w :: pages) =
        .writeMain w.2 (pageOffset ps w.1) :: mainWrites ps pages := rfl
    rw [e, runOps_cons, ih]
    rfl

theorem runOps_recordOps (ps nonce : UInt32) (i k : Nat) (R : List (UInt32 × Bytes)) (main j : Bytes) :
    runOps ((recordOps ps nonce i R).take k) ⟨main, some j⟩ =
      ⟨main, some (writeRecords nonce ps ps j i (R.take k))⟩ := by
  induction R generalizing i k j with
  | nil => simp [recordOps, writeRecords]
  | cons w R ih =>
    cases k with
    | zero => rfl
    | succ k =>
      simp only [recordOps, List.take_succ_cons, runOps_cons, FileOp.apply, Option.getD_some, ih,
        writeRecords]

theorem recordOps_length (ps nonce : UInt32) (i : Nat) (R : List (UInt32 × Bytes)) :
    (recordOps ps nonce i R).length = R.length := by
  induction R generalizing i with
  | nil => rfl
  | cons w R ih => simp [recordOps, ih]

/-! ## A whole flush -/

section
variable {ps count nonce : UInt32} {sync : SynchronousMode} {dirty : DirtyPages} {main : Bytes}

/-- The pages a flush journals. -/
def toJournal (count : UInt32) (dirty : DirtyPages) : List UInt32 := dirty.keys.filter (· ≤ count)

theorem mem_toJournal {p : UInt32} : p ∈ toJournal count dirty ↔ (∃ b, (p, b) ∈ dirty.toList) ∧ p ≤ count := by
  simp only [toJournal, List.mem_filter, decide_eq_true_eq]
  refine and_congr_left fun _ => ?_
  rw [ExtTreeMap.mem_keys, ExtTreeMap.mem_iff_isSome_getElem?, Option.isSome_iff_exists]
  exact exists_congr fun b => ExtTreeMap.mem_toList_iff_getElem?_eq_some.symm

/-- The plan of a flush that journals something and finds its pages. -/
theorem flushLocked_journaled {region : Bytes} (hc : headerPageCount main ps = .ok count)
    (hwf : ∀ w ∈ dirty.toList, w.1 ≠ 0 ∧ w.2.length = ps.toNat)
    (hread : ∀ p ∈ toJournal count dirty, ∃ c, readPage main ps p = .ok c)
    (hj : toJournal count dirty ≠ [])
    (hreg : headerRegion ⟨UInt32.ofNat (toJournal count dirty).length, nonce, count, ps, ps⟩ =
      .ok region) :
    flushLocked ps sync nonce main dirty =
      ⟨[.createJournal, .writeJournal region 0] ++
          (recordOps ps nonce 0 (preImages main ps (toJournal count dirty)) ++
          ((if sync ≠ .off then [.syncJournal] else []) ++ (mainWrites ps dirty.toList ++
          ((if sync = .full then [.syncMain] else []) ++ [.deleteJournal])))), none⟩ := by
  have hfold : dirty.keys.filter (· ≤ count) = toJournal count dirty := rfl
  simp only [flushLocked, hc, hfold, journalPart, if_neg hj, hreg]
  rw [journalRecords_eq 0 hread, writeDirty_eq hwf, andThen_ops rfl, andThen_ops rfl, andThen_ops rfl,
    andThen_ops rfl]
  simp only [List.append_assoc]

/-- The files after a flush that finds its pages: all dirty pages written
and no new journal, or nothing written and at most an empty journal made. -/
theorem runOps_flushLocked {f : Files} (hc : headerPageCount f.main ps = .ok count)
    (hwf : ∀ w ∈ dirty.toList, w.1 ≠ 0 ∧ w.2.length = ps.toNat)
    (hread : ∀ p ∈ toJournal count dirty, ∃ c, readPage f.main ps p = .ok c) :
    ((flushLocked ps sync nonce f.main dirty).error = none ∧
      ∃ j, runOps (flushLocked ps sync nonce f.main dirty).ops f =
          ⟨writePages f.main ps dirty.toList, j⟩ ∧ (j = none ∨ j = f.journal ∧ toJournal count dirty = [])) ∨
      ((flushLocked ps sync nonce f.main dirty).error ≠ none ∧
        runOps (flushLocked ps sync nonce f.main dirty).ops f = ⟨f.main, some (f.journal.getD [])⟩) := by
  have hsyncs : ∀ (c : Prop) [Decidable c] (g : Files),
      runOps (if c then [.syncJournal] else []) g = g ∧ runOps (if c then [.syncMain] else []) g = g := by
    intro c _ g
    split <;> exact ⟨rfl, rfl⟩
  by_cases hj : toJournal count dirty = []
  · have hfold : dirty.keys.filter (· ≤ count) = [] := hj
    refine .inl ?_
    simp only [flushLocked, hc, hfold, journalPart, if_true]
    rw [writeDirty_eq hwf, andThen_ops rfl, andThen_ops rfl]
    refine ⟨rfl, f.journal, ?_, .inr ⟨rfl, hj⟩⟩
    simp only [List.nil_append, List.append_nil, runOps_append, (hsyncs _ _).2, runOps_mainWrites]
  · cases hreg : headerRegion ⟨UInt32.ofNat (toJournal count dirty).length, nonce, count, ps, ps⟩ with
    | error e =>
      have hfold : dirty.keys.filter (· ≤ count) = toJournal count dirty := rfl
      refine .inr ?_
      simp only [flushLocked, hc, hfold, journalPart, if_neg hj, hreg, Plan.andThen]
      exact ⟨by simp, rfl⟩
    | ok region =>
      rw [flushLocked_journaled hc hwf hread hj hreg]
      refine .inl ⟨rfl, none, ?_, .inl rfl⟩
      have hrec := runOps_recordOps ps nonce 0 (preImages f.main ps (toJournal count dirty)).length
        (preImages f.main ps (toJournal count dirty)) f.main
      simp only [List.take_of_length_le (Nat.le_of_eq (recordOps_length ..)), List.take_length] at hrec
      simp only [runOps_append, runOps_cons, runOps_nil, FileOp.apply, Option.getD_some, hrec,
        (hsyncs _ _).1, (hsyncs _ _).2, runOps_mainWrites]

end

end DbStorage.Pager
