import DbStorage.Btree.IndexCursor
import DbStorage.Core.Loop
import DbStorage.Core.LTS

/-!
# What the cursors read (`btree/mod.rs`, `btree/index.rs`)

The loops of the two cursors and of `reassemble_payload` as `Loop`s, for pages
that hold any bytes: they may point to each other in cycles and claim any
number of cells, any pointer and any payload length.

`TableServes` and `IndexServes` say what a call of a cursor answers and reads.
Result: `cursor_reads_bounded`. Every sequence of calls is served, with the
answers of the cursors' functions; a traversal opens at most
`MAX_PAGES_VISITED` pages of the tree, and each overflow chain it reads has
at most `MAX_PAGES_VISITED` pages. An index entry's chain is read while the
index is traversed and is not counted against the traversal, so the two
together are more than one bound allows (`overflow_beyond_traversal`).
-/
namespace DbStorage.Btree
open Bytes Pager Record PageWalk List

/-! ## Accesses -/

/-- A read of a page of the tree, or of the pages of an overflow chain. -/
inductive Access where
  | page (p : UInt32)
  | chain (ps : List UInt32)

def Access.opened : Access → Nat
  | .page _ => 1
  | .chain _ => 0

theorem Access.opened_le (a : Access) : a.opened ≤ 1 := by
  cases a <;> simp [Access.opened]

def Access.pages : Access → Nat
  | .page _ => 1
  | .chain ps => ps.length

/-- The pages of the tree among what was read. -/
def opened (as : List Access) : Nat := (as.map Access.opened).sum

/-- All pages that were read. -/
def pagesRead (as : List Access) : Nat := (as.map Access.pages).sum

/-- An overflow chain within the bound. -/
def Access.ShortChain (a : Access) : Prop := ∃ ps, a = .chain ps ∧ ps.length ≤ maxPagesVisited

def Access.Bounded : Access → Prop
  | .page _ => True
  | .chain ps => ps.length ≤ maxPagesVisited

theorem Access.ShortChain.bounded {a : Access} (h : a.ShortChain) : a.Bounded := by
  obtain ⟨ps, rfl, hps⟩ := h
  exact hps

theorem opened_append (as bs : List Access) : opened (as ++ bs) = opened as + opened bs := by
  simp [opened]

variable {as : List Access} {s : ChainState} {k tailStart payloadLen ptrBase skip i : Nat} {r : Except BtreeError Bytes}
  {pageNum : UInt32} {page : Bytes} {desc : Bool} {f : IndexFrame} {j : Job UInt32 IndexFrame} {c : TableCursor}
  {call : TableCall} {out : Except BtreeError TableAnswer × TableCursor}

theorem opened_chains (h : ∀ a ∈ as, a.ShortChain) : opened as = 0 := by
  unfold opened
  induction as with
  | nil => rfl
  | cons a as ih =>
    obtain ⟨⟨ps, rfl, -⟩, has⟩ := forall_mem_cons.1 h
    rw [map_cons, sum_cons, ih has]
    rfl

/-! ## Overflow chains -/

structure ChainState where
  remaining : Nat
  overflowPage : UInt32
  visited : List UInt32
  result : Bytes
  deriving DecidableEq

variable {ps : List UInt32} {isIndex reverse : Bool} {cellStart usableSize : Nat}

section
variable (source : PageSource) (available : Nat) (pageNum : UInt32)

/-- What a round takes from an overflow page: the next page and the bytes.
mirrors btree/mod.rs:782-797 -/
def chainPage (remaining : Nat) (overflowPage : UInt32) : Except BtreeError (UInt32 × Bytes) := do
  let page ← source.readPage overflowPage
  let next ← readU32 page 0 overflowPage
  match page.getRange 4 (4 + min remaining available) with
  | none => .error (.pageTooShort overflowPage page.length)
  | some chunk => .ok (next, chunk)

/-- mirrors btree/mod.rs:766-800 -/
def chainRound (s : ChainState) : Except BtreeError Bytes ⊕ ChainState :=
  if s.remaining = 0 then .inl (.ok s.result)
  else if s.overflowPage = 0 then .inl (.error (.overflowChainTruncated pageNum))
  else if s.overflowPage ∈ s.visited then .inl (.error (.overflowChainCycle pageNum s.overflowPage))
  else if maxPagesVisited < s.visited.length + 1 then .inl (.error (.overflowChainTooLong pageNum maxPagesVisited))
  else
    match chainPage source available s.remaining s.overflowPage with
    | .error e => .inl (.error e)
    | .ok (next, chunk) =>
      .inr ⟨s.remaining - min s.remaining available, next, s.overflowPage :: s.visited, s.result ++ chunk⟩

/-- Whether a round reads a page. -/
def ChainState.Reads (s : ChainState) : Prop :=
  s.remaining ≠ 0 ∧ s.overflowPage ≠ 0 ∧ s.overflowPage ∉ s.visited ∧ s.visited.length < maxPagesVisited

instance (s : ChainState) : Decidable s.Reads := inferInstanceAs (Decidable (_ ∧ _ ∧ _ ∧ _))

def chainLoop : Loop ChainState (Except BtreeError Bytes) UInt32 where
  round := chainRound source available pageNum
  log s ps := ps = if s.Reads then [s.overflowPage] else []

/-- What the model computes from a state of the loop. -/
def ChainState.finish (s : ChainState) : Except BtreeError Bytes :=
  (reassembleFrom source available pageNum s.remaining s.remaining s.overflowPage s.visited).map (s.result ++ ·)

variable {source available pageNum}

theorem chainRound_reads {s : ChainState} (h : s.Reads) : chainRound source available pageNum s =
    match chainPage source available s.remaining s.overflowPage with
    | .error e => .inl (.error e)
    | .ok (next, chunk) =>
      .inr ⟨s.remaining - min s.remaining available, next, s.overflowPage :: s.visited, s.result ++ chunk⟩ := by
  obtain ⟨hrem, hpage, hvis, hlen⟩ := h
  rw [chainRound, if_neg hrem, if_neg hpage, if_neg hvis, if_neg (by omega)]

theorem chainRound_stops (h : ¬s.Reads) : ∃ r, chainRound source available pageNum s = .inl r := by
  unfold chainRound
  split_ifs with hrem hpage hvis hlen
  · exact ⟨_, rfl⟩
  · exact ⟨_, rfl⟩
  · exact ⟨_, rfl⟩
  · exact ⟨_, rfl⟩
  · exact absurd ⟨hrem, hpage, hvis, by omega⟩ h

theorem reassembleFrom_reads {fuel : Nat} {s : ChainState} (h : s.Reads) :
    reassembleFrom source available pageNum (fuel + 1) s.remaining s.overflowPage s.visited =
      match chainPage source available s.remaining s.overflowPage with
      | .error e => .error e
      | .ok (next, chunk) =>
        (reassembleFrom source available pageNum fuel (s.remaining - min s.remaining available) next
          (s.overflowPage :: s.visited)).map (chunk ++ ·) := by
  obtain ⟨hrem, hpage, hvis, hlen⟩ := h
  rw [reassembleFrom, if_neg hrem, if_neg hpage, if_neg hvis, if_neg (by omega), chainPage]
  cases source.readPage s.overflowPage with
  | error e => rfl
  | ok page =>
    simp only [bind, Except.bind]
    cases readU32 page 0 s.overflowPage with
    | error e => rfl
    | ok next =>
      simp only
      cases page.getRange 4 (4 + min s.remaining available) with
      | none => rfl
      | some chunk => rfl

theorem reassembleFrom_stops (n : Nat) (h : ¬s.Reads) : chainRound source available pageNum s = .inl
      ((reassembleFrom source available pageNum (n + 1) s.remaining s.overflowPage s.visited).map (s.result ++ ·)) := by
  rw [reassembleFrom, chainRound]
  split_ifs with hrem hpage hvis hlen
  · simp [Except.map]
  · rfl
  · rfl
  · rfl
  · exact absurd ⟨hrem, hpage, hvis, by omega⟩ h

theorem reassembleFrom_stopped {fuel : Nat} (h : ¬s.Reads) :
    reassembleFrom source available pageNum (fuel + 1) s.remaining s.overflowPage s.visited =
      reassembleFrom source available pageNum (k + 1) s.remaining s.overflowPage s.visited := by
  have hstop : ∀ n, chainRound source available pageNum { s with result := [] } =
      .inl (reassembleFrom source available pageNum (n + 1) s.remaining s.overflowPage s.visited) := by
    intro n
    have hreads : ¬({ s with result := [] } : ChainState).Reads := h
    rw [reassembleFrom_stops n hreads]
    cases reassembleFrom source available pageNum (n + 1) s.remaining s.overflowPage s.visited with
    | error e => rfl
    | ok rest => rfl
  exact Sum.inl.inj ((hstop fuel).symm.trans (hstop k))

/-- Each page has at least one byte of the payload. -/
theorem reassembleFrom_stable (hpos : 0 < available) (fuel k : Nat) {s : ChainState} (h : s.remaining ≤ fuel) :
    reassembleFrom source available pageNum (fuel + k) s.remaining s.overflowPage s.visited =
      reassembleFrom source available pageNum fuel s.remaining s.overflowPage s.visited := by
  induction fuel generalizing s with
  | zero =>
    have hz : s.remaining = 0 := by omega
    cases k with
    | zero => rfl
    | succ k => simp only [reassembleFrom, hz, if_true]
  | succ fuel ih =>
    rw [Nat.add_right_comm]
    by_cases hreads : s.Reads
    · rw [reassembleFrom_reads hreads, reassembleFrom_reads hreads]
      cases chainPage source available s.remaining s.overflowPage with
      | error e => rfl
      | ok r =>
        have hrem := hreads.1
        have := ih (s := ⟨s.remaining - min s.remaining available, r.1, s.overflowPage :: s.visited, []⟩)
          (by simp only; omega)
        simp only at this ⊢
        rw [this]
    · exact reassembleFrom_stopped hreads

theorem ChainState.finish_unrolls (hpos : 0 < available) (s : ChainState) :
    Loop.Unrolls (fun _ => True) (ChainState.finish source available pageNum) ChainState.remaining s
      (chainRound source available pageNum s) := by
  by_cases hreads : s.Reads
  · obtain ⟨n, hn⟩ := Nat.exists_eq_succ_of_ne_zero hreads.1
    have hfin : s.finish source available pageNum =
        (reassembleFrom source available pageNum (n + 1) s.remaining s.overflowPage s.visited).map (s.result ++ ·) := by
      rw [ChainState.finish, hn]
    rw [reassembleFrom_reads hreads] at hfin
    rw [chainRound_reads hreads]
    cases hpage : chainPage source available s.remaining s.overflowPage with
    | error e =>
      rw [hpage] at hfin
      exact hfin
    | ok r =>
      obtain ⟨next, chunk⟩ := r
      simp only [hpage] at hfin
      refine ⟨trivial, hfin.trans ?_, by simp only; omega⟩
      -- the fuel of the rest of the chain is what remains, not `n`
      have hle : s.remaining - min s.remaining available ≤ n := by omega
      obtain ⟨k, hk⟩ := Nat.exists_eq_add_of_le hle
      have hstable := @reassembleFrom_stable source available pageNum hpos (s.remaining - min s.remaining available) k
        ⟨s.remaining - min s.remaining available, next, s.overflowPage :: s.visited, []⟩ (Nat.le_refl _)
      rw [hk, hstable, ChainState.finish]
      cases reassembleFrom source available pageNum (s.remaining - min s.remaining available)
          (s.remaining - min s.remaining available) next (s.overflowPage :: s.visited) with
      | error e => rfl
      | ok rest => simp [Except.map]
  · obtain ⟨n, hn⟩ | hz : (∃ n, s.remaining = n + 1) ∨ s.remaining = 0 := by
      cases s.remaining with
      | zero => exact .inr rfl
      | succ n => exact .inl ⟨n, rfl⟩
    · rw [reassembleFrom_stops n hreads]
      simp only [Loop.Unrolls, ChainState.finish, hn]
    · rw [chainRound, if_pos hz]
      simp [Loop.Unrolls, ChainState.finish, hz, reassembleFrom, Except.map]

theorem chainLoop_ends (hpos : 0 < available) (s : ChainState) :
    ∃ ps, (chainLoop source available pageNum).Ends s (s.finish source available pageNum) ps :=
  Loop.ends (I := fun _ => True) (fun _ _ => ⟨_, rfl⟩) (fun s _ => s.finish_unrolls hpos) trivial

/-- A chain has no page twice, so the pages it reads are those it visits. -/
theorem chainLoop_length_le (h : (chainLoop source available pageNum).Ends s r ps) :
    ps.length ≤ maxPagesVisited - s.visited.length := by
  have := h.weight_le (w := fun _ => 1) (Φ := fun s => maxPagesVisited - s.visited.length) (ψ := fun _ => 0) ?_
  · simpa using this
  intro s ps hps
  obtain rfl : ps = if s.Reads then [s.overflowPage] else [] := hps
  by_cases hreads : s.Reads
  · have hlen := hreads.2.2.2
    simp only [chainLoop, hreads, if_true, chainRound_reads]
    cases chainPage source available s.remaining s.overflowPage with
    | error e => simp; omega
    | ok r => simp; omega
  · obtain ⟨r, hr⟩ : ∃ r, chainRound source available pageNum s = .inl r := chainRound_stops hreads
    simp [chainLoop, hreads, hr]

end

/-! ## Payloads -/

section
variable (source : PageSource) (usableSize : Nat) (pageNum : UInt32) (page : Bytes)

/-- The state of the loop over the overflow pages of a cell, if its payload
has any.
mirrors btree/mod.rs:719-756 -/
def chainStart (tailStart payloadLen : Nat) (isIndex : Bool) : Option ChainState :=
  let localSize := localPayloadSize usableSize payloadLen isIndex
  if maxPayloadLen < payloadLen ∨ page.length < tailStart ∨ localSize = payloadLen then none
  else
    match getRange (page.drop tailStart) 0 localSize, getRange (page.drop tailStart) localSize (localSize + 4) with
    | some localBytes, some overflowBytes => some ⟨payloadLen - localSize, ofBe32 overflowBytes, [], localBytes⟩
    | _, _ => none

/-- What `reassemble_payload` reads. -/
def PayloadReads (tailStart payloadLen : Nat) (isIndex : Bool) (as : List Access) : Prop :=
  match chainStart usableSize page tailStart payloadLen isIndex with
  | none => as = []
  | some s => ∃ ps, as = [.chain ps] ∧ (chainLoop source (max (usableSize - 4) 1) pageNum).Ends s
      (reassemblePayload source usableSize pageNum page tailStart payloadLen isIndex) ps

variable {source usableSize pageNum page}

theorem reassemblePayload_chain (h : chainStart usableSize page tailStart payloadLen isIndex = some s) :
    reassemblePayload source usableSize pageNum page tailStart payloadLen isIndex =
      s.finish source (max (usableSize - 4) 1) pageNum := by
  simp only [chainStart] at h
  split_ifs at h with hno
  have hlen : ¬maxPayloadLen < payloadLen := fun h => hno (.inl h)
  have htail : tailStart ≤ page.length := Nat.le_of_not_lt fun h => hno (.inr (.inl h))
  have hlocal : localPayloadSize usableSize payloadLen isIndex ≠ payloadLen := fun h => hno (.inr (.inr h))
  rw [reassemblePayload, if_neg hlen, tailFrom, if_pos htail]
  split at h
  · rename_i localBytes overflowBytes hl ho
    cases h
    simp only [bind, Except.bind, hl, hlocal, if_false, ho, ChainState.finish]
    cases reassembleFrom source (max (usableSize - 4) 1) pageNum
        (payloadLen - localPayloadSize usableSize payloadLen isIndex)
        (payloadLen - localPayloadSize usableSize payloadLen isIndex) (ofBe32 overflowBytes) [] <;> rfl
  · cases h

theorem payloadReads_exists (tailStart payloadLen : Nat) (isIndex : Bool) :
    ∃ as, PayloadReads source usableSize pageNum page tailStart payloadLen isIndex as := by
  unfold PayloadReads
  cases h : chainStart usableSize page tailStart payloadLen isIndex with
  | none => exact ⟨[], rfl⟩
  | some s =>
    have hpos : 0 < max (usableSize - 4) 1 := by omega
    obtain ⟨ps, hps⟩ := @chainLoop_ends source _ pageNum hpos s
    exact ⟨[.chain ps], ps, rfl, by rwa [reassemblePayload_chain h]⟩

theorem PayloadReads.shortChain (h : PayloadReads source usableSize pageNum page tailStart payloadLen isIndex as) :
    ∀ a ∈ as, a.ShortChain := by
  unfold PayloadReads at h
  split at h
  · simp [h]
  · obtain ⟨ps, rfl, hps⟩ := h
    have := chainLoop_length_le hps
    simpa using ⟨ps, rfl, by omega⟩

end

/-! ## The table cursor -/

section
variable (source : PageSource)

/-- A row of a table is not read before `current_payload`, so a turn reads
nothing. -/
def tableLoop (reverse : Bool) :
    Loop (Job UInt32 Frame) (Except BtreeError (Option (Int64 × CurrentCell)) × Traversal Frame) Access :=
  (tableReader source reverse).loop .page fun _ as => as = []

/-- One page of a lookup: the row, or the next page.
mirrors btree/mod.rs:306-394 -/
def seekPage (target : Int64) (pageNum : UInt32) : Except BtreeError (Option (Int64 × CurrentCell) ⊕ UInt32) := do
  let page ← source.readPage pageNum
  let headerStart := page1HeaderStart pageNum
  let pageType ← readPageType page headerStart pageNum
  let numCells ← readNumCells page headerStart pageNum
  if pageType = leafTable then do
    let r ← bisect (probeLeaf page pageNum target) numCells 0 numCells ()
    .ok (.inl (foundRow r))
  else if pageType = interiorTable then
    if page.length < headerStart + 12 then .error (.pageTooShort pageNum page.length)
    else do
      let rightmost ← readU32 page (headerStart + 8) pageNum
      let r ← bisect (probeInterior page pageNum target) numCells 0 numCells rightmost
      .ok (.inr (nextPage r))
  else .error (.unexpectedPageType pageNum pageType)

/-- The searches inside of the page come to an end; they read nothing. -/
def SearchEnds (target : Int64) (pageNum : UInt32) (page : Bytes) (as : List Access) : Prop :=
  match readPageType page (page1HeaderStart pageNum) pageNum, readNumCells page (page1HeaderStart pageNum) pageNum,
    readU32 page (page1HeaderStart pageNum + 8) pageNum with
  | .ok pageType, .ok numCells, rightmost =>
    if pageType = leafTable then
      (bisectLoop (probeLeaf page pageNum target) fun _ as => as = []).Ends (0, numCells, ())
        (bisect (probeLeaf page pageNum target) numCells 0 numCells ()) as
    else
      match rightmost with
      | .error _ => as = []
      | .ok rightmost => (bisectLoop (probeInterior page pageNum target) fun _ as => as = []).Ends
          (0, numCells, rightmost) (bisect (probeInterior page pageNum target) numCells 0 numCells rightmost) as
  | _, _, _ => as = []

/-- A state is the number of pages that may still be read and the page.
mirrors btree/mod.rs:298-395 -/
def seekLoop (target : Int64) : Loop (Nat × UInt32) (Except BtreeError (Option (Int64 × CurrentCell))) Access where
  round
    | (0, _) => .inl (.error (.traversalTooLong maxPagesVisited))
    | (budget + 1, pageNum) =>
      match seekPage source target pageNum with
      | .error e => .inl (.error e)
      | .ok (.inl row) => .inl (.ok row)
      | .ok (.inr next) => .inr (budget, next)
  log
    | (0, _), as => as = []
    | (_ + 1, pageNum), as =>
      match source.readPage pageNum with
      | .error _ => as = [.page pageNum]
      | .ok page => ∃ bs, SearchEnds target pageNum page bs ∧ as = .page pageNum :: bs

variable {source}

theorem seekFrom_succ (target : Int64) (budget : Nat) (pageNum : UInt32) :
    seekFrom source target (budget + 1) pageNum =
      match seekPage source target pageNum with
      | .error e => .error e
      | .ok (.inl row) => .ok row
      | .ok (.inr next) => seekFrom source target budget next := by
  rw [seekFrom, seekPage]
  cases source.readPage pageNum with
  | error e => rfl
  | ok page =>
    simp only [bind, Except.bind]
    cases readPageType page (page1HeaderStart pageNum) pageNum with
    | error e => rfl
    | ok pageType =>
      simp only
      cases readNumCells page (page1HeaderStart pageNum) pageNum with
      | error e => rfl
      | ok numCells =>
        simp only
        split_ifs with hleaf hint hshort
        · cases bisect (probeLeaf page pageNum target) numCells 0 numCells () <;> rfl
        · rfl
        · cases readU32 page (page1HeaderStart pageNum + 8) pageNum with
          | error e => rfl
          | ok rightmost =>
            simp only
            cases bisect (probeInterior page pageNum target) numCells 0 numCells rightmost <;> rfl
        · rfl

theorem searchEnds_exists (target : Int64) (pageNum : UInt32) (page : Bytes) :
    ∃ as, SearchEnds target pageNum page as := by
  unfold SearchEnds
  split
  · split_ifs
    · refine bisectLoop_whole_ends (fun _ => ?_) _ _
      exact ⟨[], rfl⟩
    · split
      · exact ⟨[], rfl⟩
      · refine bisectLoop_whole_ends (fun _ => ?_) _ _
        exact ⟨[], rfl⟩
  · exact ⟨[], rfl⟩

variable {target : Int64}

theorem SearchEnds.eq_nil (h : SearchEnds target pageNum page as) : as = [] := by
  have hnone {as : List Access} (h : ∀ a ∈ as, False) : as = [] := eq_nil_iff_forall_not_mem.2 h
  have hreads (_ : Nat) (as : List Access) (h : as = []) : ∀ a ∈ as, False := by simp [h]
  unfold SearchEnds at h
  split at h
  · split_ifs at h
    · exact hnone (bisectLoop_forall_mem hreads h)
    · split at h
      · exact h
      · exact hnone (bisectLoop_forall_mem hreads h)
  · exact h

theorem seekLoop_ends (target : Int64) (budget : Nat) (pageNum : UInt32) :
    ∃ as, (seekLoop source target).Ends (budget, pageNum) (seekFrom source target budget pageNum) as := by
  refine Loop.ends (I := fun _ => True) (g := fun s => seekFrom source target s.1 s.2) (μ := Prod.fst) ?_ ?_
    (s := (budget, pageNum)) trivial
  · rintro ⟨budget, pageNum⟩ -
    cases budget with
    | zero => exact ⟨[], rfl⟩
    | succ budget =>
      simp only [seekLoop]
      cases source.readPage pageNum with
      | error e => exact ⟨_, rfl⟩
      | ok page =>
        obtain ⟨bs, hbs⟩ := searchEnds_exists target pageNum page
        exact ⟨_, bs, hbs, rfl⟩
  · rintro ⟨budget, pageNum⟩ -
    cases budget with
    | zero => rfl
    | succ budget =>
      have hsucc := @seekFrom_succ source target budget pageNum
      simp only [seekLoop]
      cases hpage : seekPage source target pageNum with
      | error e => rwa [hpage] at hsucc
      | ok r =>
        rw [hpage] at hsucc
        cases r with
        | inl row => exact hsucc
        | inr next => exact ⟨trivial, hsucc, Nat.lt_succ_self _⟩

theorem seekLoop_log {s : Nat × UInt32} (h : (seekLoop source target).log s as) :
    s.1 = 0 ∧ as = [] ∨ ∃ n, s.1 = n + 1 ∧ as = [.page s.2] := by
  obtain ⟨budget, pageNum⟩ := s
  cases budget with
  | zero => exact .inl ⟨rfl, h⟩
  | succ budget =>
    refine .inr ⟨budget, rfl, ?_⟩
    simp only [seekLoop] at h
    split at h
    · exact h
    · obtain ⟨bs, hbs, rfl⟩ := h
      rw [hbs.eq_nil]

/-- A lookup has a budget of its own. -/
theorem seekLoop_opened_le {s : Nat × UInt32} {r : Except BtreeError (Option (Int64 × CurrentCell))}
    (h : (seekLoop source target).Ends s r as) : opened as ≤ s.1 := by
  have := h.weight_le (w := Access.opened) (Φ := Prod.fst) (ψ := fun _ => 0) ?_
  · exact this
  rintro s as has
  rcases seekLoop_log has with ⟨hz, rfl⟩ | ⟨n, hn, rfl⟩
  · obtain ⟨budget, pageNum⟩ := s
    cases hz
    simp [seekLoop]
  · obtain ⟨budget, pageNum⟩ := s
    cases hn
    simp only [seekLoop, map_cons, map_nil, sum_cons, sum_nil, Access.opened]
    cases seekPage source target pageNum with
    | error e => simp
    | ok r =>
      cases r with
      | inl row => simp
      | inr next => simp [Nat.add_comm]

end

/-! ## The index cursor -/

namespace Index

section
variable (source : PageSource) (usableSize : Nat)

/-- What decoding an entry reads: the cell's payload, if the cell is there.
mirrors index.rs:414-463 -/
def CellReads (page : Bytes) (ptrBase : Nat) (pageNum : UInt32) (skip i : Nat) (as : List Access) : Prop :=
  match (do
    let cellStart ← readCellPointer page (cellPtrOffset ptrBase i) pageNum i
    decodePayloadLen page (cellStart + skip) pageNum : Except BtreeError (Nat × Nat)) with
  | .error _ => as = []
  | .ok (payloadLen, tailStart) => PayloadReads source usableSize pageNum page tailStart payloadLen true as

/-- Entry `i` of a frame's page. -/
def IndexFrame.EntryReads (f : IndexFrame) (i : Nat) (as : List Access) : Prop :=
  CellReads source usableSize f.page f.cellPtrBase f.pageNum (if f.isInterior then 4 else 0) i as

/-- The entry that a turn yields, by its place on the page: the entries of an
interior page stand on the odd steps. -/
def IndexFrame.yielded (f : IndexFrame) (desc : Bool) : Nat :=
  let step := if desc then f.step - 1 else f.step
  if f.isInterior then (step - 1) / 2 else step

/-- An entry is read with its whole payload when it is yielded. -/
def IndexFrame.TurnReads (desc : Bool) (f : IndexFrame) (as : List Access) : Prop :=
  match (indexReader source usableSize desc).turn f with
  | .yield _ _ => f.EntryReads source usableSize (f.yielded desc) as
  | _ => as = []

def indexLoop (desc : Bool) :
    Loop (Job UInt32 IndexFrame) (Except BtreeError (Option Bytes) × Traversal IndexFrame) Access :=
  (indexReader source usableSize desc).loop .page (IndexFrame.TurnReads source usableSize desc)

variable (target : List Value) (encoding : TextEncoding)

/-- The frame that `seek` leaves behind where it found the place `i`, and the
child it goes on with, which an interior page has. -/
def IndexFrame.goDown (f : IndexFrame) (i : Nat) : IndexFrame × Except BtreeError UInt32 :=
  let f' := { f with step := if i < f.numCells then i * 2 + 1 else f.numCells * 2 + 1 }
  (f', if i < f.numCells then f'.readInteriorChild i else .ok f'.rightmost)

/-- The loop of `seek`. The result is `none` where `stack[top]` would be
beyond the end of the stack.
mirrors index.rs:168-189 -/
def descentRound : Job UInt32 IndexFrame → Option (Except BtreeError Unit × Traversal IndexFrame) ⊕ Job UInt32 IndexFrame
  | .open p t =>
    match (indexReader source usableSize false).push p t with
    | (.error e, t') => .inl (some (.error e, t'))
    | (.ok (), t') => .inr (.turn t')
  | .turn t =>
    match t.stack with
    | [] => .inl none
    | f :: rest =>
      match f.binarySearchPage source target encoding usableSize with
      | .error e => .inl (some (.error e, t))
      | .ok i =>
        if !f.isInterior then .inl (some (.ok (), { t with stack := { f with step := i } :: rest }))
        else
          match f.goDown i with
          | (f', .error e) => .inl (some (.error e, { t with stack := f' :: rest }))
          | (f', .ok child) => .inr (.open child { t with stack := f' :: rest })

/-- How `binary_search_page` decodes entry `i` of a frame. -/
def IndexFrame.entry (f : IndexFrame) (i : Nat) : Except BtreeError Bytes :=
  if f.isInterior then f.decodeInteriorEntry source usableSize i else f.decodeLeafEntry source usableSize i

/-- The search of a page reads the entries it probes. -/
def IndexFrame.SearchReads (f : IndexFrame) (as : List Access) : Prop :=
  (bisectLoop (probeKey target encoding (f.entry source usableSize)) (f.EntryReads source usableSize)).Ends
    (0, f.numCells, ()) (bisect (probeKey target encoding (f.entry source usableSize)) f.numCells 0 f.numCells ()) as

def descentLoop : Loop (Job UInt32 IndexFrame) (Option (Except BtreeError Unit × Traversal IndexFrame)) Access where
  round := descentRound source usableSize target encoding
  log := (indexReader source usableSize false).log .page (IndexFrame.SearchReads source usableSize target encoding)

variable {source usableSize target encoding}

theorem cellReads_exists (page : Bytes) (ptrBase : Nat) (pageNum : UInt32) (skip i : Nat) :
    ∃ as, CellReads source usableSize page ptrBase pageNum skip i as := by
  unfold CellReads
  split
  · exact ⟨[], rfl⟩
  · exact payloadReads_exists _ _ _

theorem CellReads.shortChain (h : CellReads source usableSize page ptrBase pageNum skip i as) :
    ∀ a ∈ as, a.ShortChain := by
  unfold CellReads at h
  split at h
  · simp [h]
  · exact h.shortChain

theorem valueCell_of (hptr : readCellPointer page (cellPtrOffset ptrBase i) pageNum i = .ok cellStart)
    (hlen : decodePayloadLen page (cellStart + skip) pageNum = .ok (payloadLen, tailStart)) :
    valueCell source usableSize page ptrBase pageNum skip i =
      reassemblePayload source usableSize pageNum page tailStart payloadLen true := by
  simp only [valueCell, hptr, hlen, bind, Except.bind]

theorem cellReads_of (hptr : readCellPointer page (cellPtrOffset ptrBase i) pageNum i = .ok cellStart)
    (hlen : decodePayloadLen page (cellStart + skip) pageNum = .ok (payloadLen, tailStart)) :
    CellReads source usableSize page ptrBase pageNum skip i as ↔
      PayloadReads source usableSize pageNum page tailStart payloadLen true as := by
  simp only [CellReads, hptr, hlen, bind, Except.bind]

theorem turnReads_exists (desc : Bool) (f : IndexFrame) : ∃ as, f.TurnReads source usableSize desc as := by
  unfold IndexFrame.TurnReads
  split
  · exact cellReads_exists ..
  · exact ⟨[], rfl⟩

theorem IndexFrame.TurnReads.shortChain (h : f.TurnReads source usableSize desc as) : ∀ a ∈ as, a.ShortChain := by
  unfold IndexFrame.TurnReads at h
  split at h
  · exact CellReads.shortChain h
  · simp [h]

theorem searchReads_exists (f : IndexFrame) : ∃ as, f.SearchReads source usableSize target encoding as :=
  bisectLoop_whole_ends (fun _ => cellReads_exists ..) _ _

theorem IndexFrame.SearchReads.shortChain (h : f.SearchReads source usableSize target encoding as) :
    ∀ a ∈ as, a.ShortChain :=
  bisectLoop_forall_mem (fun _ _ => CellReads.shortChain) h

theorem descend_cons (fuel : Nat) (f : IndexFrame) (rest : List IndexFrame) (v : Nat) :
    descend source target encoding usableSize (fuel + 1) ⟨f :: rest, v⟩ =
      match f.binarySearchPage source target encoding usableSize with
      | .error e => (.error e, ⟨f :: rest, v⟩)
      | .ok i =>
        if !f.isInterior then (.ok (), ⟨{ f with step := i } :: rest, v⟩)
        else
          match f.goDown i with
          | (f', .error e) => (.error e, ⟨f' :: rest, v⟩)
          | (f', .ok child) =>
            match (indexReader source usableSize false).push child ⟨f' :: rest, v⟩ with
            | (.error e, t') => (.error e, t')
            | (.ok (), t') => descend source target encoding usableSize fuel t' := by
  simp only [descend, IndexFrame.goDown]
  cases f.binarySearchPage source target encoding usableSize with
  | error e => rfl
  | ok i =>
    simp only
    split
    · rfl
    · cases (if i < f.numCells then
        IndexFrame.readInteriorChild { f with step := if i < f.numCells then i * 2 + 1 else f.numCells * 2 + 1 } i
        else .ok f.rightmost : Except BtreeError UInt32) <;> rfl

/-- Every turn that goes on opens a page. -/
theorem descend_stable (fuel k : Nat) {t : Traversal IndexFrame} (h : maxPagesVisited - t.pagesVisited < fuel) :
    descend source target encoding usableSize (fuel + k) t = descend source target encoding usableSize fuel t := by
  induction fuel generalizing t with
  | zero => omega
  | succ fuel ih =>
    rw [Nat.add_right_comm]
    obtain ⟨st, v⟩ := t
    cases st with
    | nil => rfl
    | cons f rest =>
      rw [descend_cons, descend_cons]
      cases f.binarySearchPage source target encoding usableSize with
      | error e => rfl
      | ok i =>
        simp only
        cases f.isInterior with
        | false => rfl
        | true =>
          simp only [Bool.not_true, Bool.false_eq_true, if_false]
          obtain ⟨f', child⟩ := f.goDown i
          cases child with
          | error e => rfl
          | ok child =>
            simp only
            rcases (indexReader source usableSize false).push_cases child ⟨f' :: rest, v⟩ with
              ⟨e, hpush⟩ | ⟨g, hv, -, hpush⟩
            · simp only [hpush]
            · simp only [hpush]
              have hmax : v < maxPagesVisited := hv
              exact ih (by simp only at h ⊢; omega)

/-- Where `stack[top]` is on the stack. -/
def OnStack : Job UInt32 IndexFrame → Prop
  | .open _ _ => True
  | .turn t => t.stack ≠ []

/-- The descent of the model from a job. -/
def descentFinish (source : PageSource) (usableSize : Nat) (target : List Value) (encoding : TextEncoding) :
    Job UInt32 IndexFrame → Option (Except BtreeError Unit × Traversal IndexFrame)
  | .open p t =>
    match (indexReader source usableSize false).push p t with
    | (.error e, t') => some (.error e, t')
    | (.ok (), t') => some (descend source target encoding usableSize (maxPagesVisited + 1) t')
  | .turn t => some (descend source target encoding usableSize (maxPagesVisited + 1) t)

theorem descentFinish_unrolls (hj : OnStack j) :
    Loop.Unrolls OnStack (descentFinish source usableSize target encoding) (Job.measure maxPagesVisited) j
      (descentRound source usableSize target encoding j) := by
  cases j with
  | «open» p t =>
    rcases (indexReader source usableSize false).push_cases p t with ⟨e, hpush⟩ | ⟨f, hv, -, hpush⟩
    · simp [descentRound, descentFinish, Loop.Unrolls, hpush]
    · have hmax : t.pagesVisited < maxPagesVisited := hv
      simp only [descentRound, descentFinish, Loop.Unrolls, hpush, Job.measure, length_cons, OnStack, ne_eq,
        reduceCtorEq, not_false_eq_true, true_and]
      omega
  | turn t =>
    obtain ⟨st, v⟩ := t
    cases st with
    | nil => exact absurd rfl hj
    | cons f rest =>
      have hfin : descentFinish source usableSize target encoding (.turn ⟨f :: rest, v⟩) =
          some (descend source target encoding usableSize (maxPagesVisited + 1) ⟨f :: rest, v⟩) := rfl
      rw [descend_cons] at hfin
      simp only [descentRound]
      cases hs : f.binarySearchPage source target encoding usableSize with
      | error e =>
        simp only [hs] at hfin
        exact hfin
      | ok i =>
        simp only [hs] at hfin ⊢
        cases hint : f.isInterior with
        | false =>
          simp only [hint, Bool.not_false, if_true] at hfin ⊢
          exact hfin
        | true =>
          simp only [hint, Bool.not_true, Bool.false_eq_true, if_false] at hfin ⊢
          cases hdown : f.goDown i with
          | mk f' child =>
            simp only [hdown] at hfin ⊢
            cases child with
            | error e => exact hfin
            | ok child =>
              refine ⟨trivial, hfin.trans ?_, by simp only [Job.measure, length_cons]; omega⟩
              simp only [descentFinish]
              rcases (indexReader source usableSize false).push_cases child ⟨f' :: rest, v⟩ with
                ⟨e, hpush⟩ | ⟨g, hv, -, hpush⟩
              · simp only [hpush]
              · simp only [hpush]
                have hmax : v < maxPagesVisited := hv
                rw [descend_stable maxPagesVisited 1 (by simp only; omega)]

theorem descentLoop_ends {j : Job UInt32 IndexFrame} (hj : OnStack j) :
    ∃ as, (descentLoop source usableSize target encoding).Ends j (descentFinish source usableSize target encoding j) as := by
  refine Loop.ends (fun j _ => ?_) (fun j => descentFinish_unrolls) hj
  match j with
  | .open p t => exact ⟨_, rfl⟩
  | .turn ⟨[], _⟩ => exact ⟨_, rfl⟩
  | .turn ⟨f :: _, _⟩ => exact searchReads_exists f

/-- The pages that the traversal of a cursor may still open. -/
def IndexCursor.pagesLeft (c : IndexCursor) : Nat := maxPagesVisited - c.walk.pagesVisited

/-- The pages that the walk after a descent may still open. -/
def pagesLeft : Option (Except BtreeError Unit × Traversal IndexFrame) → Nat
  | none => 0
  | some (_, t) => maxPagesVisited - t.pagesVisited

theorem descentLoop_opened_le {r : Option (Except BtreeError Unit × Traversal IndexFrame)}
    (h : (descentLoop source usableSize target encoding).Ends j r as) :
    opened as + pagesLeft r ≤ maxPagesVisited - j.walk.pagesVisited := by
  refine h.weight_le (Φ := fun j => maxPagesVisited - j.walk.pagesVisited) (ψ := pagesLeft) ?_
  intro j as has
  match j with
  | .open p t =>
    obtain rfl : as = if maxPagesVisited < t.pagesVisited + 1 then [] else [.page p] := has
    rcases (indexReader source usableSize false).push_cases p t with ⟨e, hpush⟩ | ⟨f, hv, -, hpush⟩
    · simp only [descentLoop, descentRound, hpush, Sum.elim_inl, pagesLeft, Job.walk]
      split <;> simp [Access.opened] <;> omega
    · simp only [descentLoop, descentRound, hpush, Sum.elim_inr, Job.walk]
      split <;> simp [Access.opened] <;> omega
  | .turn ⟨[], _⟩ =>
    obtain rfl : as = [] := has
    simp [descentLoop, descentRound, pagesLeft]
  | .turn ⟨f :: rest, v⟩ =>
    have hzero : (as.map Access.opened).sum = 0 := opened_chains (IndexFrame.SearchReads.shortChain has)
    rw [hzero]
    simp only [descentLoop, descentRound]
    cases f.binarySearchPage source target encoding usableSize with
    | error e => simp [pagesLeft, Job.walk]
    | ok i =>
      simp only
      split
      · simp [pagesLeft, Job.walk]
      · obtain ⟨f', child⟩ := f.goDown i
        cases child <;> simp [pagesLeft, Job.walk]

theorem descentLoop_bounded {r : Option (Except BtreeError Unit × Traversal IndexFrame)}
    (h : (descentLoop source usableSize target encoding).Ends j r as) : ∀ a ∈ as, a.Bounded := by
  refine h.forall_mem fun j as => ?_
  exact Reader.log_mem (fun _ => trivial) fun f as has a ha => (has.shortChain a ha).bounded

end

end Index

/-! ## Calls -/

inductive TableCall where
  | first
  | next
  | last
  | prev
  | seek (target : Int64)
  | currentPayload

inductive TableAnswer where
  | row (rowid : Option Int64)
  | payload (bytes : Bytes)

def rowAnswer (r : Except BtreeError (Option Int64) × TableCursor) : Except BtreeError TableAnswer × TableCursor :=
  (r.1.map .row, r.2)

/-- The cursor after a lookup. -/
def TableCursor.sought (c : TableCursor) :
    Except BtreeError (Option (Int64 × CurrentCell)) → Except BtreeError (Option Int64) × TableCursor
  | .error e => (.error e, { c with current := none })
  | .ok none => (.ok none, { c with current := none })
  | .ok (some (rowid, cell)) => (.ok (some rowid), { c with current := some cell })

def TableCall.apply (source : PageSource) : TableCall → TableCursor → Except BtreeError TableAnswer × TableCursor
  | .first, c => rowAnswer (c.first source)
  | .next, c => rowAnswer (c.next source)
  | .last, c => rowAnswer (c.last source)
  | .prev, c => rowAnswer (c.prev source)
  | .seek target, c => rowAnswer (c.seek source target)
  | .currentPayload, c => ((c.currentPayload source).map .payload, c)

/-- What a call of a table cursor answers and reads, by the loops that it
runs. -/
inductive TableServes (source : PageSource) (c : TableCursor) :
    TableCall → Except BtreeError TableAnswer × TableCursor → List Access → Prop where
  | first {r : Except BtreeError (Option (Int64 × CurrentCell)) × Traversal Frame} {as : List Access} :
      (tableLoop source false).Ends (.open c.rootPage ⟨[], 0⟩) r as →
      TableServes source c .first (rowAnswer (TableCursor.moved { c with positionedReverse := false } r)) as
  | next {r : Except BtreeError (Option (Int64 × CurrentCell)) × Traversal Frame} {as : List Access} :
      (tableLoop source false).Ends (.turn c.walk) r as → TableServes source c .next (rowAnswer (c.moved r)) as
  | last {r : Except BtreeError (Option (Int64 × CurrentCell)) × Traversal Frame} {as : List Access} :
      (tableLoop source true).Ends (.open c.rootPage ⟨[], 0⟩) r as →
      TableServes source c .last (rowAnswer (TableCursor.moved { c with positionedReverse := true } r)) as
  | prev {r : Except BtreeError (Option (Int64 × CurrentCell)) × Traversal Frame} {as : List Access} :
      c.positionedReverse = true → (tableLoop source true).Ends (.turn c.walk) r as →
      TableServes source c .prev (rowAnswer (c.moved r)) as
  | notPositioned : c.positionedReverse = false → TableServes source c .prev
      (.error (.cursorNotPositioned "TableCursor::prev()" "TableCursor::last()"), c) []
  | seek {target : Int64} {r : Except BtreeError (Option (Int64 × CurrentCell))} {as : List Access} :
      (seekLoop source target).Ends (maxPagesVisited, c.rootPage) r as →
      TableServes source c (.seek target) (rowAnswer (c.sought r)) as
  | payload {cur : CurrentCell} {as : List Access} : c.current = some cur →
      PayloadReads source c.usableSize cur.pageNum cur.page cur.tailStart cur.payloadLen false as →
      TableServes source c .currentPayload ((reassemblePayload source c.usableSize cur.pageNum cur.page cur.tailStart
        cur.payloadLen false).map .payload, c) as
  | noRow : c.current = none → TableServes source c .currentPayload
      (.error (.cursorNotPositioned "TableCursor::current_payload()"
        "first()/next()/last()/prev()/seek() returning Some(rowid)"), c) []

inductive IndexCall where
  | first
  | next
  | last
  | prev
  | seek (target : List Value) (encoding : TextEncoding)

def IndexCall.apply (source : PageSource) :
    IndexCall → Index.IndexCursor → Except BtreeError (Option Bytes) × Index.IndexCursor
  | .first, c => c.first source
  | .next, c => c.next source
  | .last, c => c.last source
  | .prev, c => c.prev source
  | .seek target encoding, c => c.seek source target encoding

open Index in
inductive IndexServes (source : PageSource) (c : IndexCursor) :
    IndexCall → Except BtreeError (Option Bytes) × IndexCursor → List Access → Prop where
  | first {r : Except BtreeError (Option Bytes) × Traversal IndexFrame} {as : List Access} :
      (indexLoop source c.usableSize false).Ends (.open c.rootPage ⟨[], 0⟩) r as →
      IndexServes source c .first (c.moved r) as
  | next {r : Except BtreeError (Option Bytes) × Traversal IndexFrame} {as : List Access} :
      (indexLoop source c.usableSize false).Ends (.turn c.walk) r as → IndexServes source c .next (c.moved r) as
  | last {r : Except BtreeError (Option Bytes) × Traversal IndexFrame} {as : List Access} :
      (indexLoop source c.usableSize true).Ends (.open c.rootPage ⟨[], 0⟩) r as →
      IndexServes source c .last (c.moved r) as
  | prev {r : Except BtreeError (Option Bytes) × Traversal IndexFrame} {as : List Access} :
      (indexLoop source c.usableSize true).Ends (.turn c.walk) r as → IndexServes source c .prev (c.moved r) as
  | seekFails {target : List Value} {encoding : TextEncoding} {e : BtreeError} {t : Traversal IndexFrame}
      {as : List Access} :
      (descentLoop source c.usableSize target encoding).Ends (.open c.rootPage ⟨[], 0⟩) (some (.error e, t)) as →
      IndexServes source c (.seek target encoding) (.error e, { c with walk := t }) as
  | seek {target : List Value} {encoding : TextEncoding} {t : Traversal IndexFrame} {as bs : List Access}
      {r : Except BtreeError (Option Bytes) × Traversal IndexFrame} :
      (descentLoop source c.usableSize target encoding).Ends (.open c.rootPage ⟨[], 0⟩) (some (.ok (), t)) as →
      (indexLoop source c.usableSize false).Ends (.turn t) r bs →
      IndexServes source c (.seek target encoding) (c.moved r) (as ++ bs)

section
variable {source : PageSource}

theorem tableLoop_ends (reverse : Bool) (j : Job UInt32 Frame) :
    ∃ as, (tableLoop source reverse).Ends j ((tableReader source reverse).finish j) as := by
  refine Reader.loop_ends (fun _ => ?_) j
  exact ⟨[], rfl⟩

theorem tableLoop_opened_le {j : Job UInt32 Frame}
    {r : Except BtreeError (Option (Int64 × CurrentCell)) × Traversal Frame}
    (h : (tableLoop source reverse).Ends j r as) :
    opened as + (maxPagesVisited - r.2.pagesVisited) ≤ maxPagesVisited - j.walk.pagesVisited :=
  Reader.weight_le (w := Access.opened) (fun _ => Access.opened_le _) (fun _ as has => by simp [has]) h

theorem tableLoop_bounded {j : Job UInt32 Frame}
    {r : Except BtreeError (Option (Int64 × CurrentCell)) × Traversal Frame}
    (h : (tableLoop source reverse).Ends j r as) : ∀ a ∈ as, a.Bounded :=
  h.forall_mem fun _ _ => Reader.log_mem (fun _ => trivial) fun _ as has => by simp [has]

theorem indexLoop_ends (usableSize : Nat) (desc : Bool) (j : Job UInt32 Index.IndexFrame) :
    ∃ as, (Index.indexLoop source usableSize desc).Ends j ((Index.indexReader source usableSize desc).finish j) as :=
  Reader.loop_ends (Index.turnReads_exists desc) j

theorem indexLoop_opened_le {j : Job UInt32 Index.IndexFrame}
    {r : Except BtreeError (Option Bytes) × Traversal Index.IndexFrame}
    (h : (Index.indexLoop source usableSize desc).Ends j r as) :
    opened as + (maxPagesVisited - r.2.pagesVisited) ≤ maxPagesVisited - j.walk.pagesVisited :=
  Reader.weight_le (w := Access.opened) (fun _ => Access.opened_le _) (fun _ _ has => opened_chains has.shortChain) h

theorem indexLoop_bounded {j : Job UInt32 Index.IndexFrame}
    {r : Except BtreeError (Option Bytes) × Traversal Index.IndexFrame}
    (h : (Index.indexLoop source usableSize desc).Ends j r as) : ∀ a ∈ as, a.Bounded :=
  h.forall_mem fun _ _ => Reader.log_mem (fun _ => trivial) fun _ _ has a ha => (has.shortChain a ha).bounded

theorem tableServes_exists (c : TableCursor) (call : TableCall) :
    ∃ as, TableServes source c call (call.apply source c) as := by
  cases call with
  | first =>
    obtain ⟨as, has⟩ := @tableLoop_ends source false (.open c.rootPage ⟨[], 0⟩)
    exact ⟨as, .first has⟩
  | next =>
    obtain ⟨as, has⟩ := @tableLoop_ends source false (.turn c.walk)
    exact ⟨as, .next has⟩
  | last =>
    obtain ⟨as, has⟩ := @tableLoop_ends source true (.open c.rootPage ⟨[], 0⟩)
    exact ⟨as, .last has⟩
  | prev =>
    cases hrev : c.positionedReverse with
    | false =>
      refine ⟨[], ?_⟩
      simpa [TableCall.apply, TableCursor.prev, hrev, rowAnswer, Except.map] using TableServes.notPositioned hrev
    | true =>
      obtain ⟨as, has⟩ := @tableLoop_ends source true (.turn c.walk)
      refine ⟨as, ?_⟩
      simpa [TableCall.apply, TableCursor.prev, hrev, Reader.finish] using TableServes.prev hrev has
  | seek target =>
    obtain ⟨as, has⟩ := @seekLoop_ends source target maxPagesVisited c.rootPage
    exact ⟨as, .seek has⟩
  | currentPayload =>
    cases hcur : c.current with
    | none =>
      refine ⟨[], ?_⟩
      simpa [TableCall.apply, TableCursor.currentPayload, hcur, Except.map] using TableServes.noRow hcur
    | some cur =>
      obtain ⟨as, has⟩ := @payloadReads_exists source c.usableSize cur.pageNum cur.page cur.tailStart cur.payloadLen false
      refine ⟨as, ?_⟩
      simpa [TableCall.apply, TableCursor.currentPayload, hcur] using TableServes.payload hcur has

theorem TableServes.answer (h : TableServes source c call out as) : out = call.apply source c := by
  cases h with
  | @first r as h =>
    obtain ⟨bs, hbs⟩ := @tableLoop_ends source false (.open c.rootPage ⟨[], 0⟩)
    rw [h.unique hbs]
    rfl
  | @next r as h =>
    obtain ⟨bs, hbs⟩ := @tableLoop_ends source false (.turn c.walk)
    rw [h.unique hbs]
    rfl
  | @last r as h =>
    obtain ⟨bs, hbs⟩ := @tableLoop_ends source true (.open c.rootPage ⟨[], 0⟩)
    rw [h.unique hbs]
    rfl
  | @prev r as hrev h =>
    obtain ⟨bs, hbs⟩ := @tableLoop_ends source true (.turn c.walk)
    rw [h.unique hbs]
    simp [TableCall.apply, TableCursor.prev, hrev, Reader.finish]
  | notPositioned hrev => simp [TableCall.apply, TableCursor.prev, hrev, rowAnswer, Except.map]
  | @seek target r as h =>
    obtain ⟨bs, hbs⟩ := @seekLoop_ends source target maxPagesVisited c.rootPage
    rw [h.unique hbs]
    rfl
  | payload hcur _ => simp [TableCall.apply, TableCursor.currentPayload, hcur]
  | noRow hcur => simp [TableCall.apply, TableCursor.currentPayload, hcur, Except.map]

theorem TableServes.bounded (h : TableServes source c call out as) : ∀ a ∈ as, a.Bounded := by
  cases h with
  | first h => exact tableLoop_bounded h
  | next h => exact tableLoop_bounded h
  | last h => exact tableLoop_bounded h
  | prev _ h => exact tableLoop_bounded h
  | notPositioned _ => simp
  | seek h =>
    refine h.forall_mem fun s as has => ?_
    rcases seekLoop_log has with ⟨-, rfl⟩ | ⟨n, -, rfl⟩
    · simp
    · simp [Access.Bounded]
  | payload _ h => exact fun a ha => (h.shortChain a ha).bounded
  | noRow _ => simp

/-- The pages that the traversal of a cursor may still open. -/
def TableCursor.pagesLeft (c : TableCursor) : Nat := maxPagesVisited - c.walk.pagesVisited

theorem moved_walk (c : TableCursor) (r : Except BtreeError (Option (Int64 × CurrentCell)) × Traversal Frame) :
    (rowAnswer (c.moved r)).2.walk = r.2 := by
  obtain ⟨res, t⟩ := r
  match res with
  | .error e => rfl
  | .ok none => rfl
  | .ok (some row) => rfl

/-- The calls that start a traversal, and those that go on with one. -/
def TableCall.Starts (call : TableCall) : Prop := call = .first ∨ call = .last

def TableCall.Continues (call : TableCall) : Prop := call = .next ∨ call = .prev ∨ call = .currentPayload

theorem TableServes.starts (h : TableServes source c call out as) (hc : call.Starts) :
    opened as + out.2.pagesLeft ≤ maxPagesVisited := by
  rcases hc with rfl | rfl
  · cases h with
    | first h =>
      rw [TableCursor.pagesLeft, moved_walk]
      exact tableLoop_opened_le h
  · cases h with
    | last h =>
      rw [TableCursor.pagesLeft, moved_walk]
      exact tableLoop_opened_le h

theorem TableServes.continues (h : TableServes source c call out as) (hc : call.Continues) :
    opened as + out.2.pagesLeft ≤ c.pagesLeft := by
  rcases hc with rfl | rfl | rfl
  · cases h with
    | next h =>
      rw [TableCursor.pagesLeft, moved_walk]
      exact tableLoop_opened_le h
  · cases h with
    | prev _ h =>
      rw [TableCursor.pagesLeft, moved_walk]
      exact tableLoop_opened_le h
    | notPositioned _ => exact Nat.le_of_eq (Nat.zero_add _)
  · cases h with
    | payload _ h => rw [opened_chains h.shortChain, Nat.zero_add]
    | noRow _ => exact Nat.le_of_eq (Nat.zero_add _)

theorem TableServes.opened_le (h : TableServes source c call out as) : opened as ≤ maxPagesVisited := by
  have hleft : c.pagesLeft ≤ maxPagesVisited := Nat.sub_le ..
  cases call with
  | first =>
    have := h.starts (.inl rfl)
    omega
  | last =>
    have := h.starts (.inr rfl)
    omega
  | next =>
    have := h.continues (.inl rfl)
    omega
  | prev =>
    have := h.continues (.inr (.inl rfl))
    omega
  | currentPayload =>
    have := h.continues (.inr (.inr rfl))
    omega
  | seek target =>
    cases h with
    | seek h => exact seekLoop_opened_le h

theorem indexServes_exists (c : Index.IndexCursor) (call : IndexCall) :
    ∃ as, IndexServes source c call (call.apply source c) as := by
  cases call with
  | first =>
    obtain ⟨as, has⟩ := @indexLoop_ends source c.usableSize false (.open c.rootPage ⟨[], 0⟩)
    exact ⟨as, .first has⟩
  | next =>
    obtain ⟨as, has⟩ := @indexLoop_ends source c.usableSize false (.turn c.walk)
    exact ⟨as, .next has⟩
  | last =>
    obtain ⟨as, has⟩ := @indexLoop_ends source c.usableSize true (.open c.rootPage ⟨[], 0⟩)
    exact ⟨as, .last has⟩
  | prev =>
    obtain ⟨as, has⟩ := @indexLoop_ends source c.usableSize true (.turn c.walk)
    exact ⟨as, .prev has⟩
  | seek target encoding =>
    obtain ⟨as, has⟩ := @Index.descentLoop_ends source c.usableSize target encoding (.open c.rootPage ⟨[], 0⟩) trivial
    simp only [IndexCall.apply, Index.IndexCursor.seek]
    simp only [Index.descentFinish] at has
    rcases hpush : (Index.indexReader source c.usableSize false).push c.rootPage ⟨[], 0⟩ with ⟨e | ⟨⟩, t⟩
    · simp only [hpush] at has ⊢
      exact ⟨as, .seekFails has⟩
    · simp only [hpush] at has ⊢
      rcases hdesc : Index.descend source target encoding c.usableSize (maxPagesVisited + 1) t with ⟨e | ⟨⟩, t'⟩
      · rw [hdesc] at has
        exact ⟨as, .seekFails has⟩
      · rw [hdesc] at has
        obtain ⟨bs, hbs⟩ := @indexLoop_ends source c.usableSize false (.turn t')
        exact ⟨as ++ bs, .seek has hbs⟩

variable {c : Index.IndexCursor} {call : IndexCall} {out : Except BtreeError (Option Bytes) × Index.IndexCursor}

theorem IndexServes.answer (h : IndexServes source c call out as) : out = call.apply source c := by
  cases h with
  | first h =>
    obtain ⟨bs, hbs⟩ := @indexLoop_ends source c.usableSize false (.open c.rootPage ⟨[], 0⟩)
    rw [h.unique hbs]
    rfl
  | next h =>
    obtain ⟨bs, hbs⟩ := @indexLoop_ends source c.usableSize false (.turn c.walk)
    rw [h.unique hbs]
    rfl
  | last h =>
    obtain ⟨bs, hbs⟩ := @indexLoop_ends source c.usableSize true (.open c.rootPage ⟨[], 0⟩)
    rw [h.unique hbs]
    rfl
  | prev h =>
    obtain ⟨bs, hbs⟩ := @indexLoop_ends source c.usableSize true (.turn c.walk)
    rw [h.unique hbs]
    rfl
  | @seekFails target encoding e t as h =>
    obtain ⟨bs, hbs⟩ := @indexServes_exists source c (.seek target encoding)
    generalize hout : (IndexCall.seek target encoding).apply source c = out at hbs
    cases hbs with
    | seekFails h' => cases h.unique h'; rfl
    | seek h' _ => cases h.unique h'
  | @seek target encoding t as bs r h hr =>
    obtain ⟨cs, hcs⟩ := @indexServes_exists source c (.seek target encoding)
    generalize hout : (IndexCall.seek target encoding).apply source c = out at hcs
    cases hcs with
    | seekFails h' => cases h.unique h'
    | seek h' hr' =>
      cases h.unique h'
      rw [hr.unique hr']

theorem IndexServes.bounded (h : IndexServes source c call out as) : ∀ a ∈ as, a.Bounded := by
  cases h with
  | first h => exact indexLoop_bounded h
  | next h => exact indexLoop_bounded h
  | last h => exact indexLoop_bounded h
  | prev h => exact indexLoop_bounded h
  | seekFails h => exact Index.descentLoop_bounded h
  | seek h hr => exact forall_mem_append.2 ⟨Index.descentLoop_bounded h, indexLoop_bounded hr⟩

/-- A lookup in an index starts a traversal: its pages count for the walk that
goes on from it. -/
def IndexCall.Starts (call : IndexCall) : Prop :=
  call = .first ∨ call = .last ∨ ∃ target encoding, call = .seek target encoding

def IndexCall.Continues (call : IndexCall) : Prop := call = .next ∨ call = .prev

theorem IndexServes.starts (h : IndexServes source c call out as)
    (hc : call.Starts) : opened as + out.2.pagesLeft ≤ maxPagesVisited := by
  rcases hc with rfl | rfl | ⟨target, encoding, rfl⟩
  · cases h with
    | first h => exact indexLoop_opened_le h
  · cases h with
    | last h => exact indexLoop_opened_le h
  · cases h with
    | seekFails h => exact Index.descentLoop_opened_le h
    | @seek _ _ t as bs r h hr =>
      have hdown : opened as + (maxPagesVisited - t.pagesVisited) ≤ maxPagesVisited := Index.descentLoop_opened_le h
      have hwalk : opened bs + (maxPagesVisited - r.2.pagesVisited) ≤ maxPagesVisited - t.pagesVisited :=
        indexLoop_opened_le hr
      have hleft : (c.moved r).2.pagesLeft = maxPagesVisited - r.2.pagesVisited := rfl
      rw [opened_append, hleft]
      omega

theorem IndexServes.continues (h : IndexServes source c call out as)
    (hc : call.Continues) : opened as + out.2.pagesLeft ≤ c.pagesLeft := by
  rcases hc with rfl | rfl
  · cases h with
    | next h => exact indexLoop_opened_le h
  · cases h with
    | prev h => exact indexLoop_opened_le h

theorem IndexServes.opened_le (h : IndexServes source c call out as) : opened as ≤ maxPagesVisited := by
  have hleft : c.pagesLeft ≤ maxPagesVisited := Nat.sub_le ..
  by_cases hc : call.Starts
  · have := h.starts hc
    omega
  · have hc' : call.Continues := by
      cases call with
      | first => exact absurd (.inl rfl) hc
      | last => exact absurd (.inr (.inl rfl)) hc
      | seek target encoding => exact absurd (.inr (.inr ⟨_, _, rfl⟩)) hc
      | next => exact .inl rfl
      | prev => exact .inr rfl
    have := h.continues hc'
    omega

end

/-! ## Sequences of calls -/

structure Served (C O : Type) where
  call : C
  answer : Except BtreeError O
  reads : List Access

section
variable {S C O : Type}

/-- A cursor that is called again and again, from any state. -/
def callSystem (serves : S → C → Except BtreeError O × S → List Access → Prop) : LTS S (Served C O) where
  init _ := True
  step s l s' := serves s l.call (l.answer, s') l.reads

/-- What a sequence of calls read. -/
def readsOf (ls : List (Served C O)) : List Access := ls.flatMap Served.reads

/-- `starts` are the calls that start a traversal, and `continues` those that
go on with it. -/
structure ReadsBounded (serves : S → C → Except BtreeError O × S → List Access → Prop)
    (apply : C → S → Except BtreeError O × S) (starts continues : C → Prop) : Prop where
  /-- Every sequence of calls comes to its end. -/
  served (s : S) (calls : List C) : ∃ ls s', (callSystem serves).Run s ls s' ∧ ls.map Served.call = calls
  /-- A call answers what the function of the cursor returns: a value or an error. -/
  answer {s : S} {call : C} {out : Except BtreeError O × S} {as : List Access} :
    serves s call out as → out = apply call s
  /-- No call opens more pages of the tree than the bound. -/
  call {s : S} {call : C} {out : Except BtreeError O × S} {as : List Access} :
    serves s call out as → opened as ≤ maxPagesVisited
  chain {s s' : S} {ls : List (Served C O)} {ps : List UInt32} :
    (callSystem serves).Run s ls s' → .chain ps ∈ readsOf ls → ps.length ≤ maxPagesVisited
  traversal {s s' : S} {l : Served C O} {ls : List (Served C O)} :
    (callSystem serves).Run s (l :: ls) s' → starts l.call → (∀ m ∈ ls, continues m.call) →
      opened (readsOf (l :: ls)) ≤ maxPagesVisited

variable {serves : S → C → Except BtreeError O × S → List Access → Prop} {apply : C → S → Except BtreeError O × S}

theorem calls_served (h : ∀ s call, ∃ as, serves s call (apply call s) as) (s : S) (calls : List C) :
    ∃ ls s', (callSystem serves).Run s ls s' ∧ ls.map Served.call = calls := by
  induction calls generalizing s with
  | nil => exact ⟨[], s, .nil s, rfl⟩
  | cons call calls ih =>
    obtain ⟨as, has⟩ := h s call
    obtain ⟨ls, s', hrun, hcalls⟩ := ih (apply call s).2
    exact ⟨⟨call, (apply call s).1, as⟩ :: ls, s', .cons has hrun, by rw [map_cons, hcalls]⟩

variable {ls : List (Served C O)} {left : S → Nat}

theorem run_bounded (h : ∀ {s call out as}, serves s call out as → ∀ a ∈ as, a.Bounded) {s s' : S}
    (hrun : (callSystem serves).Run s ls s') : ∀ a ∈ readsOf ls, a.Bounded := by
  induction hrun with
  | nil => simp [readsOf]
  | cons hstep _ ih => exact forall_mem_append.2 ⟨h hstep, ih⟩

/-- Calls that go on with a traversal open no more pages than are left. -/
theorem run_opened_le {continues : C → Prop}
    (h : ∀ {s call out as}, serves s call out as → continues call → opened as + left out.2 ≤ left s) {s s' : S}
    (hrun : (callSystem serves).Run s ls s') (hls : ∀ m ∈ ls, continues m.call) : opened (readsOf ls) ≤ left s := by
  induction hrun with
  | nil => exact Nat.zero_le _
  | @cons s s₁ s₂ l ls hstep _ ih =>
    obtain ⟨hl, hls⟩ := forall_mem_cons.1 hls
    have hrest := ih hls
    have hfirst : opened l.reads + left s₁ ≤ left s := h hstep hl
    rw [readsOf, flatMap_cons, opened_append]
    rw [readsOf] at hrest
    omega

theorem ReadsBounded.of_calls {starts continues : C → Prop} (hserved : ∀ s call, ∃ as, serves s call (apply call s) as)
    (hanswer : ∀ {s call out as}, serves s call out as → out = apply call s)
    (hbounded : ∀ {s call out as}, serves s call out as → ∀ a ∈ as, a.Bounded)
    (hopened : ∀ {s call out as}, serves s call out as → opened as ≤ maxPagesVisited)
    (hstarts : ∀ {s call out as}, serves s call out as → starts call → opened as + left out.2 ≤ maxPagesVisited)
    (hcontinues : ∀ {s call out as}, serves s call out as → continues call → opened as + left out.2 ≤ left s) :
    ReadsBounded serves apply starts continues where
  served := calls_served hserved
  answer := hanswer
  call := hopened
  chain hrun hmem := run_bounded hbounded hrun _ hmem
  traversal := by
    intro s s' l ls hrun hl hls
    cases hrun with
    | @cons _ s₁ _ _ _ hstep hrun =>
      have hfirst : opened l.reads + left s₁ ≤ maxPagesVisited := hstarts hstep hl
      have hrest : opened (readsOf ls) ≤ left s₁ := run_opened_le (fun h => hcontinues h) hrun hls
      rw [readsOf, flatMap_cons, opened_append]
      rw [readsOf] at hrest
      omega

end

/-- For pages with any bytes, any usable size and any root page. -/
theorem cursor_reads_bounded (source : PageSource) :
    ReadsBounded (TableServes source) (TableCall.apply source) TableCall.Starts TableCall.Continues ∧
      ReadsBounded (IndexServes source) (IndexCall.apply source) IndexCall.Starts IndexCall.Continues :=
  ⟨.of_calls tableServes_exists TableServes.answer TableServes.bounded TableServes.opened_le TableServes.starts
      TableServes.continues,
    .of_calls indexServes_exists IndexServes.answer IndexServes.bounded IndexServes.opened_le IndexServes.starts
      IndexServes.continues⟩

/-! ## Traversals with long entries -/

/-- An index leaf with one entry, of 508000039 bytes: 39 of them are local and
the others start on page 3. -/
@[irreducible] def longEntryLeaf : Bytes :=
  [0x0a, 0, 0, 0, 1, 1, 144, 0, 1, 144] ++ List.replicate 390 0 ++ [0x81, 0xf2, 0x9d, 0xee, 0x27] ++
    List.replicate 39 0 ++ [0, 0, 0, 3] ++ List.replicate 64 0

/-- Page 2 is the leaf, and every other page points to the one after it. -/
def longEntrySource : PageSource := fun p =>
  .ok (if p = 2 then longEntryLeaf else be32 (p + 1) ++ List.replicate 508 0)

theorem longEntrySource_length (p : UInt32) (page : Bytes) (h : longEntrySource p = .ok page) : page.length = 512 := by
  obtain rfl := Except.ok.inj h
  split
  · simp only [longEntryLeaf, length_append, length_replicate, length_cons, length_nil]
  · simp only [length_append, length_replicate, be32_length]

/-- A page that starts with the next one and has all the bytes asked for. -/
theorem chainPage_of {source : PageSource} {available remaining : Nat} {p q : UInt32} {chunk : Bytes}
    (h : source p = .ok (be32 q ++ chunk)) (hmin : min remaining available = chunk.length) (hne : chunk ≠ []) :
    chainPage source available remaining p = .ok (q, chunk) := by
  have hnext : Holds (be32 q ++ chunk) 0 (be32 q) := by simpa using holds_append_right [] (be32 q) chunk
  have hchunk : Holds (be32 q ++ chunk) 4 chunk := by simpa [be32_length] using holds_append_right (be32 q) chunk []
  have hq : getRange (be32 q ++ chunk) 0 4 = some (be32 q) := hnext.getRange (by simp [be32])
  simp only [chainPage, PageSource.readPage, h, Except.mapError, bind, Except.bind, readU32, hq, hmin,
    hchunk.getRange hne, Nat.zero_add, ofBe32_be32]

theorem longEntry_chainPage {p : UInt32} (hp : p ≠ 2) :
    chainPage longEntrySource 508 (508 * (k + 1)) p = .ok (p + 1, List.replicate 508 0) := by
  refine chainPage_of (by rw [longEntrySource, if_neg hp]) ?_ (cons_ne_nil _ _)
  rw [length_replicate]
  omega

/-- The chain goes on from page to page for as long as bytes remain. -/
theorem longEntry_chain (hrem : s.remaining = 508 * k) (hpage : 2 < s.overflowPage.toNat)
    (hfit : s.overflowPage.toNat + k < 2 ^ 32) (hvis : ∀ q ∈ s.visited, q < s.overflowPage)
    (hlen : s.visited.length + k ≤ maxPagesVisited) (h : (chainLoop longEntrySource 508 2).Ends s r ps) :
    ps.length = k ∧ ∃ b, r = .ok b := by
  induction k generalizing s ps with
  | zero =>
    have hreads : ¬s.Reads := fun h => h.1 hrem
    have hround : (chainLoop longEntrySource 508 2).round s = .inl (.ok s.result) := if_pos hrem
    cases h with
    | stop hr hlog =>
      obtain rfl := Sum.inl.inj (hround.symm.trans hr)
      obtain rfl : ps = if s.Reads then [s.overflowPage] else [] := hlog
      exact ⟨by simp [hreads], _, rfl⟩
    | again hr _ _ => cases hround.symm.trans hr
  | succ k ih =>
    have htwo : s.overflowPage ≠ 2 := fun h => by simp [h] at hpage
    have hzero : s.overflowPage ≠ 0 := fun h => by simp [h] at hpage
    have hreads : s.Reads := ⟨by omega, hzero, fun h => UInt32.lt_irrefl _ (hvis _ h), by omega⟩
    have hround := @chainRound_reads longEntrySource 508 2 s hreads
    rw [hrem, longEntry_chainPage htwo] at hround
    cases h with
    | stop hr _ => cases hround.symm.trans hr
    | @again _ s' _ as bs hr hlog hrest =>
      obtain rfl := Sum.inr.inj (hround.symm.trans hr)
      obtain rfl : as = if s.Reads then [s.overflowPage] else [] := hlog
      have hnext : (s.overflowPage + 1).toNat = s.overflowPage.toNat + 1 := by
        rw [UInt32.toNat_add, UInt32.toNat_one]
        exact Nat.mod_eq_of_lt (by omega)
      have hrec := ih (by simp only; omega) (by simp only [hnext]; omega) (by simp only [hnext]; omega) ?_
        (by simp only [length_cons]; omega) hrest
      · exact ⟨by simp [hreads, hrec.1], hrec.2⟩
      · intro q hq
        simp only [mem_cons] at hq
        rw [UInt32.lt_iff_toNat_lt, hnext]
        rcases hq with rfl | hq
        · exact Nat.lt_succ_self _
        · have := UInt32.lt_iff_toNat_lt.1 (hvis q hq)
          omega

/-- The frame of the leaf, before and after its entry. -/
def longEntryFrame (step : Nat) : Index.IndexFrame := ⟨2, false, 1, 8, 0, step, longEntryLeaf⟩

def longEntryCell : ChainState := ⟨508 * 1000000, 3, [], List.replicate 39 0⟩

theorem longEntry_start : chainStart 512 longEntryLeaf 405 508000039 true = some longEntryCell := by
  decide +kernel

theorem longEntry_header :
    readPageType longEntryLeaf 0 2 = .ok leafIndex ∧ readNumCells longEntryLeaf 0 2 = .ok 1 := by
  decide +kernel

theorem longEntry_load : Index.loadFrame longEntrySource 2 = .ok (longEntryFrame 0) := by
  obtain ⟨htype, hnum⟩ := longEntry_header
  have hpage : longEntrySource.readPage 2 = .ok longEntryLeaf := rfl
  have hstart : page1HeaderStart 2 = 0 := rfl
  simp only [Index.loadFrame, hpage, hstart, htype, hnum, bind, Except.bind, if_true]
  rfl

theorem longEntry_pointer : readCellPointer longEntryLeaf (cellPtrOffset 8 0) 2 0 = .ok 400 := by
  decide +kernel

theorem longEntry_payloadLen : decodePayloadLen longEntryLeaf (400 + 0) 2 = .ok (508000039, 405) := by
  decide +kernel

open Index in
/-- The entry is yielded with all of its chain read. -/
theorem longEntry_yielded : ∃ b ps, ps.length = 1000000 ∧
    (longEntryFrame 0).decodeLeafEntry longEntrySource 512 0 = .ok b ∧
    (longEntryFrame 0).EntryReads longEntrySource 512 0 [.chain ps] := by
  have hentry : (longEntryFrame 0).decodeLeafEntry longEntrySource 512 0 =
      reassemblePayload longEntrySource 512 2 longEntryLeaf 405 508000039 true :=
    valueCell_of longEntry_pointer longEntry_payloadLen
  obtain ⟨as, has⟩ := @payloadReads_exists longEntrySource 512 2 longEntryLeaf 405 508000039 true
  have hcell : CellReads longEntrySource 512 longEntryLeaf 8 2 0 0 as :=
    (cellReads_of longEntry_pointer longEntry_payloadLen).2 has
  have hreads : (longEntryFrame 0).EntryReads longEntrySource 512 0 as := hcell
  rw [PayloadReads, longEntry_start] at has
  obtain ⟨ps, rfl, hps⟩ := has
  rw [← hentry] at hps
  obtain ⟨hlen, b, hb⟩ := longEntry_chain (k := 1000000) rfl (by decide) (by decide) (by simp [longEntryCell])
    (Nat.le_refl _) hps
  exact ⟨b, ps, hlen, hb, hreads⟩

open Index in
/-- Pages of 512 bytes and an index with one entry: a scan from its first entry
to its end reads 1,000,001 pages. -/
theorem overflow_beyond_traversal :
    (∀ p page, longEntrySource p = .ok page → page.length = 512) ∧
      ∃ b ls s', (callSystem (IndexServes longEntrySource)).Run (IndexCursor.new 512 2) ls s' ∧
        ls.map Served.call = [.first, .next] ∧ ls.map Served.answer = [.ok (some b), .ok none] ∧
        pagesRead (readsOf ls) = maxPagesVisited + 1 := by
  obtain ⟨b, ps, hps, hb, hreads⟩ := longEntry_yielded
  have hturn : (indexReader longEntrySource 512 false).turn (longEntryFrame 0) = .yield (longEntryFrame 1) (.ok b) := by
    rw [← hb]
    rfl
  have hpop : (indexReader longEntrySource 512 false).turn (longEntryFrame 1) = .pop := rfl
  have hyield : (longEntryFrame 0).TurnReads longEntrySource 512 false [.chain ps] := by
    rw [IndexFrame.TurnReads, hturn]
    exact hreads
  have hnone : (longEntryFrame 1).TurnReads longEntrySource 512 false [] := by rw [IndexFrame.TurnReads, hpop]
  have hload : (indexReader longEntrySource 512 false).load 2 = .ok (longEntryFrame 0) := longEntry_load
  have hfirst : (indexLoop longEntrySource 512 false).Ends (.open 2 ⟨[], 0⟩) (.ok (some b), ⟨[longEntryFrame 1], 1⟩)
      [.page 2, .chain ps] := Reader.ends_open (by decide) hload (Reader.ends_yield hturn hyield)
  have hnext : (indexLoop longEntrySource 512 false).Ends (.turn ⟨[longEntryFrame 1], 1⟩) (.ok none, ⟨[], 1⟩)
      ([] ++ []) := Reader.ends_pop hpop hnone (.stop rfl rfl)
  refine ⟨longEntrySource_length, b, [⟨.first, .ok (some b), [.page 2, .chain ps]⟩, ⟨.next, .ok none, [] ++ []⟩],
    ⟨512, 2, ⟨[], 1⟩⟩, ?_, rfl, rfl, ?_⟩
  · have hserve : IndexServes longEntrySource (IndexCursor.new 512 2) .first _ _ := .first hfirst
    have hserve' : IndexServes longEntrySource ⟨512, 2, ⟨[longEntryFrame 1], 1⟩⟩ .next _ _ := .next hnext
    exact .cons hserve (.cons hserve' (.nil _))
  · show 1 + (ps.length + 0) = maxPagesVisited + 1
    rw [hps, maxPagesVisited]

end DbStorage.Btree
