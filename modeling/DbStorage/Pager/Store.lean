import DbStorage.Pager.Connection

/-!
# The pager as a page store

Code above the pager (page allocation, the b-trees) sees a map from page
numbers to contents, the pages `read_page` returns (`Conn.pages`). A store is
lawful for such a view when reads return the page and change nothing that
can be read, and writes change exactly the written page.

Result: `conn_lawful`: the pager is a lawful store, whatever its cache, its
dirty pages and its WAL overlay hold.
-/
namespace DbStorage.Pager
open Bytes Vfs Std

/-- What is read for each page number; `none` where reading fails. -/
abbrev View := UInt32 → Option Bytes

def View.set (v : View) (p : UInt32) (b : Bytes) : View := fun q => if q = p then some b else v q

@[simp] theorem View.set_self (v : View) (p : UInt32) (b : Bytes) : v.set p b p = some b := if_pos rfl

theorem View.set_of_ne (v : View) (b : Bytes) {p q : UInt32} (h : q ≠ p) : v.set p b q = v q := if_neg h

theorem View.set_eq (v : View) {p : UInt32} {b : Bytes} (h : v p = some b) : v.set p b = v := by
  funext q
  by_cases hq : q = p
  · rw [hq, View.set_self, h]
  · exact v.set_of_ne b hq

/-- The page operations act on the view as on a map. -/
structure PageOps.Lawful {σ : Type} (O : PageOps σ) (A : σ → View → Prop) : Prop where
  readPage : ∀ {v : View} {p : UInt32} {b : Bytes}, v p = some b →
    Action.Runs A (O.readPage p) v (.ok b) v
  getPageMut : ∀ {v : View} {p : UInt32} {b : Bytes}, v p = some b →
    Action.Runs A (O.getPageMut p) v (.ok b) v
  putPage : ∀ (v : View) (p : UInt32) (b : Bytes), Action.Runs A (O.putPage p b) v (.ok ()) (v.set p b)
  insertPage : ∀ (v : View) (p : UInt32) (b : Bytes), Action.Runs A (O.insertPage p b) v (.ok ()) (v.set p b)
  /-- A page that cannot be read changes nothing either. -/
  readPage_keeps : ∀ (v : View) (p : UInt32), Action.Keeps (A · v) (O.readPage p)
  getPageMut_keeps : ∀ (v : View) (p : UInt32), Action.Keeps (A · v) (O.getPageMut p)

theorem PageOps.Lawful.edit {σ : Type} {O : PageOps σ} {A : σ → View → Prop} (L : O.Lawful A) {v : View}
    {p : UInt32} {b b' : Bytes} {f : Bytes → Except FreelistError Bytes} (hb : v p = some b)
    (hf : f b = .ok b') : Action.Runs A (O.edit p f) v (.ok ()) (v.set p b') :=
  (L.getPageMut hb).bind ((Action.Runs.ofExcept_ok hf).bind (L.putPage v p b'))

/-! ## The pager -/

/-- What `read_page` returns for each page. -/
def Conn.pages (s : Conn) : View := fun p => (s.readPage p).1.toOption

/-- The connection's cache is right and its reads return the view. -/
def Shows (ps : UInt32) (s : Conn) (v : View) : Prop := CacheOk s ∧ s.pager.pageSize = ps ∧ s.pages = v

section
variable {ps : UInt32} {s : Conn} {v : View}

/-- What is read depends on the dirty pages, the overlay and the main file
only. -/
theorem pages_eq (h : CacheOk s) (p : UInt32) :
    s.pages p = (s.pager.dirty[p]?).or (s.readCommitted p).toOption := by
  rw [Conn.pages, readPage_eq h]
  cases s.pager.dirty[p]? <;> rfl

theorem Shows.setCache (h : Shows ps s v) {c : PageCache} (hc : CacheOk (s.setCache c)) :
    Shows ps (s.setCache c) v := by
  refine ⟨hc, h.2.1, ?_⟩
  rw [← h.2.2]
  funext p
  rw [pages_eq hc, pages_eq h.1]
  rfl

theorem Shows.readPage (h : Shows ps s v) (p : UInt32) : Shows ps (s.readPage p).2 v := by
  obtain ⟨c, hs, hc⟩ := readPage_cached h.1 p
  rw [hs]
  exact h.setCache hc

theorem Shows.setDirty (h : Shows ps s v) (p : UInt32) (b : Bytes) : Shows ps (s.setDirty p b) (v.set p b) := by
  have hc : CacheOk (s.setDirty p b) := h.1
  refine ⟨hc, h.2.1, ?_⟩
  rw [← h.2.2]
  funext q
  rw [pages_eq hc]
  by_cases hq : q = p
  · subst hq
    simp [Conn.setDirty]
  · rw [View.set_of_ne _ _ hq, pages_eq h.1]
    simp only [Conn.setDirty, ExtTreeMap.getElem?_insert, Std.compare_eq_iff_eq, Ne.symm hq, if_false]
    rfl

/-- Making a page writable returns what it reads as and changes no page. -/
theorem Shows.getPageMut (h : Shows ps s v) (p : UInt32) :
    (s.getPageMut p).1.toOption = v p ∧ Shows ps (s.getPageMut p).2 v := by
  have hinv : Shows ps (s.setCache (s.pager.pageCache.invalidate p)) v :=
    h.setCache (h.1.sub (PageCache.content_invalidate _ _).2)
  have hv := pages_eq h.1 p
  rw [h.2.2] at hv
  unfold Conn.getPageMut
  cases hd : s.pager.dirty[p]? with
  | some page =>
    rw [hd] at hv
    simp only [Conn.setCache, hd]
    exact ⟨hv.symm, hinv⟩
  | none =>
    rw [hd, Option.none_or] at hv
    simp only [Conn.setCache, hd]
    cases hr : s.readCommitted p with
    | error e =>
      rw [hr] at hv
      simp only [Conn.readCommitted] at hr ⊢
      simp only [hr]
      exact ⟨hv.symm, hinv⟩
    | ok page =>
      rw [hr] at hv
      simp only [Conn.readCommitted] at hr ⊢
      simp only [hr]
      refine ⟨hv.symm, ?_⟩
      have hs := hinv.setDirty p page
      rwa [View.set_eq v hv] at hs

end

theorem toOption_eq_some {ε α : Type} {x : Except ε α} {a : α} (h : x.toOption = some a) : x = .ok a := by
  cases x with
  | ok b => cases h; rfl
  | error e => cases h

/-- **The pager is a lawful page store.** -/
theorem conn_lawful (ps : UInt32) : (connOps ps).Lawful (Shows ps) where
  readPage {v p b} hb s hs := by
    have hr : (s.readPage p).1 = .ok b := toOption_eq_some ((congrFun hs.2.2 p).trans hb)
    exact ⟨(s.readPage p).2, Prod.ext hr rfl, hs.readPage p⟩
  getPageMut {v p b} hb s hs := by
    obtain ⟨hv, hs'⟩ := hs.getPageMut p
    exact ⟨(s.getPageMut p).2, Prod.ext (toOption_eq_some (hv.trans hb)) rfl, hs'⟩
  putPage v p b s hs := ⟨s.setDirty p b, rfl, hs.setDirty p b⟩
  insertPage v p b s hs := ⟨s.setDirty p b, rfl, hs.setDirty p b⟩
  readPage_keeps v p s hs := hs.readPage p
  getPageMut_keeps v p s hs := (hs.getPageMut p).2

end DbStorage.Pager
